import Mathlib.Data.Fintype.Basic
import Mathlib.Data.List.Basic
import Mathlib.Logic.Function.Basic
import Mathlib.Logic.Relation
import RustKV.LibProtocols

/-! Tasks side by side. Each task runs calls, one after the other; a call is a program over
atomic actions on a shared state. Some actions take or give back locks, which exclude each other
by their modes. A step of the system is one action of one task, so that a run is an interleaving
of any number of tasks. -/

namespace Tasks

inductive LockUse (L M : Type) where
  | none
  | acquire (lock : L) (mode : M)
  | release (lock : L) (mode : M)

/-- The guards of a task after an action. -/
def LockUse.after {L M : Type} [DecidableEq L] [DecidableEq M] :
    LockUse L M → List (L × M) → List (L × M)
  | .none, held => held
  | .acquire lock mode, held => (lock, mode) :: held
  | .release lock mode, held => held.erase (lock, mode)

/-- The locks under other names. -/
def LockUse.map {L L' M : Type} (f : L → L') : LockUse L M → LockUse L' M
  | .none => .none
  | .acquire lock mode => .acquire (f lock) mode
  | .release lock mode => .release (f lock) mode

/-- Guards under other names, on top of other guards. -/
theorem LockUse.after_map {L L' M : Type} [DecidableEq L] [DecidableEq L'] [DecidableEq M]
    {f : L → L'} (hf : Function.Injective f) (use : LockUse L M) (held : List (L × M))
    {outer : List (L' × M)}
    (houter : ∀ lock mode, use = .release lock mode → (lock, mode) ∉ held → (f lock, mode) ∉ outer) :
    (use.map f).after (held.map (fun guard => (f guard.1, guard.2)) ++ outer) =
      (use.after held).map (fun guard => (f guard.1, guard.2)) ++ outer := by
  cases use with
  | none | acquire => rfl
  | release lock mode =>
    have hinj : Function.Injective fun guard : L × M => (f guard.1, guard.2) := by
      rintro guard guard' h
      obtain ⟨hlock, hmode⟩ := Prod.mk.inj h
      exact Prod.ext (hf hlock) hmode
    simp only [LockUse.map, LockUse.after]
    by_cases hmem : (lock, mode) ∈ held
    · rw [List.erase_append_left _ (List.mem_map.mpr ⟨_, hmem, rfl⟩), List.map_erase hinj]
    · rw [List.erase_of_not_mem hmem, List.erase_of_not_mem]
      intro h
      rcases List.mem_append.mp h with h | h
      · obtain ⟨guard, hg, heq⟩ := List.mem_map.mp h
        have hguard : guard = (lock, mode) := hinj heq
        exact hmem (hguard ▸ hg)
      · exact houter lock mode rfl hmem h

/-- A task rests between two calls, or has a rest of a call to run, or has ended: with the result
of its last call, or (`none`) in a panic. -/
inductive Status (C A : Type) (R : A → Type) (L M β : Type) where
  | idle
  | running (call : C) (rest : Prog A R β) (held : List (L × M))
  | done (result : Option β)

namespace Status
variable {C A : Type} {R : A → Type} {L M β : Type}

def held : Status C A R L M β → List (L × M)
  | .running _ _ held => held
  | _ => []

def isRunning : Status C A R L M β → Bool
  | .running .. => true
  | _ => false

@[simp] theorem held_running (call : C) (rest : Prog A R β) (held : List (L × M)) :
    (running call rest held : Status C A R L M β).held = held := rfl
@[simp] theorem held_idle : (idle : Status C A R L M β).held = [] := rfl
@[simp] theorem held_done (result : Option β) :
    (done result : Status C A R L M β).held = [] := rfl

end Status

/-- `does i a s r s'`: the action `a` of the task `i` may answer `r` and turn the shared state
`s` into `s'`; with `r = none` it panics. `again i b` tells whether the task goes on after a
call that returned `b`. -/
structure System (ι C A : Type) (R : A → Type) (L M σ β : Type) where
  prog : C → Prog A R β
  starts : ι → C → Prop
  again : ι → β → Bool
  use : A → LockUse L M
  compatible : M → M → Prop
  does : ι → (a : A) → σ → Option (R a) → σ → Prop
  environment : (ι → Status C A R L M β) → σ → σ → Prop

structure Config (ι C A : Type) (R : A → Type) (L M σ β : Type) where
  shared : σ
  status : ι → Status C A R L M β

inductive Label (ι : Type) where
  | start (i : ι)
  | act (i : ι)
  | panic (i : ι)
  | finish (i : ι)
  | environment
  deriving DecidableEq

/-- The task that makes the step. -/
def Label.task {ι : Type} : Label ι → Option ι
  | .start i | .act i | .panic i | .finish i => some i
  | .environment => none

section Steps
variable {ι C A : Type} {R : A → Type} {L M σ β : Type}

/-- All tasks rest. -/
def Config.initial (s : σ) : Config ι C A R L M σ β := ⟨s, fun _ => .idle⟩

def Config.set [DecidableEq ι] (cfg : Config ι C A R L M σ β) (i : ι) (s : σ)
    (status : Status C A R L M β) : Config ι C A R L M σ β :=
  ⟨s, Function.update cfg.status i status⟩

/-- The holders of a lock admit another one. -/
def Admits (S : System ι C A R L M σ β) (cfg : Config ι C A R L M σ β) : LockUse L M → Prop
  | .acquire lock mode =>
    ∀ j mode', (lock, mode') ∈ (cfg.status j).held → S.compatible mode' mode
  | _ => True

variable [DecidableEq ι] [DecidableEq L] [DecidableEq M] (S : System ι C A R L M σ β)

/-- The status after a call that returned `b`. -/
def System.finished (i : ι) (b : β) : Status C A R L M β :=
  if S.again i b then .idle else .done (some b)

/-- Only the actions that meet a condition. -/
def System.restrict (P : A → σ → Prop) : System ι C A R L M σ β :=
  { S with does := fun i a s r s' => P a s ∧ S.does i a s r s' }

/-- One step. A task that panics is unwound: its guards are dropped. -/
inductive Step (cfg : Config ι C A R L M σ β) : Label ι → Config ι C A R L M σ β → Prop
  | start {i : ι} {c : C} : cfg.status i = .idle → S.starts i c →
      Step cfg (.start i) (cfg.set i cfg.shared (.running c (S.prog c) []))
  | act {i : ι} {c : C} {a : A} {k : R a → Prog A R β} {held : List (L × M)} {r : R a} {s : σ} :
      cfg.status i = .running c (.act a k) held → Admits S cfg (S.use a) →
      S.does i a cfg.shared (some r) s →
      Step cfg (.act i) (cfg.set i s (.running c (k r) ((S.use a).after held)))
  | panic {i : ι} {c : C} {a : A} {k : R a → Prog A R β} {held : List (L × M)} {s : σ} :
      cfg.status i = .running c (.act a k) held → Admits S cfg (S.use a) →
      S.does i a cfg.shared none s → Step cfg (.panic i) (cfg.set i s (.done none))
  | finish {i : ι} {c : C} {b : β} {held : List (L × M)} :
      cfg.status i = .running c (.ret b) held →
      Step cfg (.finish i) (cfg.set i cfg.shared (S.finished i b))
  | environment {s : σ} : S.environment cfg.status cfg.shared s →
      Step cfg .environment ⟨s, cfg.status⟩

/-- The runs from a configuration, with the labels of their steps. -/
inductive Run (init : Config ι C A R L M σ β) :
    List (Label ι) → Config ι C A R L M σ β → Prop
  | nil : Run init [] init
  | snoc {labels : List (Label ι)} {cfg cfg' : Config ι C A R L M σ β} {label : Label ι} :
      Run init labels cfg → Step S cfg label cfg' → Run init (labels ++ [label]) cfg'

/-- The runs with what is observed at their steps. -/
inductive Observed {ω : Type} (observe : Config ι C A R L M σ β → Label ι → List ω)
    (init : Config ι C A R L M σ β) : List (Label ι) → List ω → Config ι C A R L M σ β → Prop
  | nil : Observed observe init [] [] init
  | snoc {labels : List (Label ι)} {seen : List ω} {cfg cfg' : Config ι C A R L M σ β}
      {label : Label ι} : Observed observe init labels seen cfg → Step S cfg label cfg' →
      Observed observe init (labels ++ [label]) (seen ++ observe cfg label) cfg'

/-- The configurations that runs reach when all tasks rest at first. -/
def Reachable (s : σ) (cfg : Config ι C A R L M σ β) : Prop :=
  ∃ labels, Run S (.initial s) labels cfg

end Steps

section Facts
variable {ι C A : Type} {R : A → Type} {L M σ β : Type}
  [DecidableEq ι] [DecidableEq L] [DecidableEq M] {S : System ι C A R L M σ β}
  {cfg cfg' : Config ι C A R L M σ β} {label : Label ι} {s : σ}

omit [DecidableEq L] [DecidableEq M] in
@[simp] theorem Config.set_shared (cfg : Config ι C A R L M σ β) (i : ι) (s : σ)
    (status : Status C A R L M β) : (cfg.set i s status).shared = s := rfl

omit [DecidableEq L] [DecidableEq M] in
@[simp] theorem Config.set_status_self (cfg : Config ι C A R L M σ β) (i : ι) (s : σ)
    (status : Status C A R L M β) : (cfg.set i s status).status i = status :=
  Function.update_self ..

omit [DecidableEq L] [DecidableEq M] in
theorem Config.set_status_ne (cfg : Config ι C A R L M σ β) {i j : ι} (h : j ≠ i) (s : σ)
    (status : Status C A R L M β) : (cfg.set i s status).status j = cfg.status j :=
  Function.update_of_ne h ..

omit [DecidableEq ι] [DecidableEq L] [DecidableEq M] in
theorem System.finished_held (i : ι) (b : β) : (S.finished i b).held = [] := by
  unfold System.finished
  split_ifs <;> rfl

/-- An invariant holds in every reachable configuration. -/
theorem Reachable.invariant {I : Config ι C A R L M σ β → Prop} (hinit : I (.initial s))
    (hstep : ∀ cfg label cfg', Reachable S s cfg → I cfg → Step S cfg label cfg' → I cfg')
    (h : Reachable S s cfg) : I cfg := by
  obtain ⟨labels, h⟩ := h
  induction h with
  | nil => exact hinit
  | snoc hrun hs ih => exact hstep _ _ _ ⟨_, hrun⟩ ih hs

theorem Reachable.step (h : Reachable S s cfg) (hs : Step S cfg label cfg') :
    Reachable S s cfg' := by
  obtain ⟨labels, h⟩ := h
  exact ⟨_, h.snoc hs⟩

theorem Reachable.run {labels : List (Label ι)} (h : Reachable S s cfg) (hrun : Run S cfg labels cfg') :
    Reachable S s cfg' := by
  induction hrun with
  | nil => exact h
  | snoc _ hs ih => exact ih.step hs

theorem Step.restrict_mono {P Q : A → σ → Prop} (h : ∀ a s, P a s → Q a s)
    (hs : Step (S.restrict P) cfg label cfg') : Step (S.restrict Q) cfg label cfg' := by
  cases hs with
  | start hi hc => exact .start (S := S.restrict Q) hi hc
  | act hi hadm hdoes => exact .act (S := S.restrict Q) hi hadm ⟨h _ _ hdoes.1, hdoes.2⟩
  | panic hi hadm hdoes => exact .panic (S := S.restrict Q) hi hadm ⟨h _ _ hdoes.1, hdoes.2⟩
  | finish hi => exact .finish (S := S.restrict Q) hi
  | environment henv => exact .environment (S := S.restrict Q) henv

/-- A run under a strict condition is one under a weak condition. -/
theorem Reachable.restrict_mono {P Q : A → σ → Prop} (h : ∀ a s, P a s → Q a s)
    (hr : Reachable (S.restrict P) s cfg) : Reachable (S.restrict Q) s cfg :=
  hr.invariant ⟨[], .nil⟩ fun _ _ _ _ ih hs => ih.step (hs.restrict_mono h)

theorem Step.of_restrict {P : A → σ → Prop} (hs : Step (S.restrict P) cfg label cfg') :
    Step S cfg label cfg' := by
  cases hs with
  | start hi hc => exact .start hi hc
  | act hi hadm hdoes => exact .act hi hadm hdoes.2
  | panic hi hadm hdoes => exact .panic hi hadm hdoes.2
  | finish hi => exact .finish hi
  | environment henv => exact .environment henv

theorem Run.of_restrict {P : A → σ → Prop} {labels : List (Label ι)}
    (h : Run (S.restrict P) cfg labels cfg') : Run S cfg labels cfg' := by
  induction h with
  | nil => exact .nil
  | snoc _ hs ih => exact ih.snoc hs.of_restrict

theorem Run.step (h : Run S cfg [label] cfg') : Step S cfg label cfg' := by
  generalize hlabels : [label] = labels at h
  cases h with
  | nil => cases hlabels
  | @snoc before cfg₁ _ last hrun hs =>
    have hlength := congrArg List.length hlabels
    rw [List.length_append, List.length_singleton, List.length_singleton] at hlength
    obtain rfl : before = [] := List.eq_nil_of_length_eq_zero (by omega)
    obtain rfl : label = last := List.singleton_inj.mp hlabels
    generalize hnone : ([] : List (Label ι)) = before at hrun
    cases hrun with
    | nil => exact hs
    | snoc => simp at hnone

section Observations
variable {ω : Type} {observe : Config ι C A R L M σ β → Label ι → List ω}
  {init : Config ι C A R L M σ β} {labels : List (Label ι)} {seen : List ω}

theorem Observed.run (h : Observed S observe init labels seen cfg) : Run S init labels cfg := by
  induction h with
  | nil => exact .nil
  | snoc _ hs ih => exact ih.snoc hs

theorem Run.observed (h : Run S init labels cfg)
    (observe : Config ι C A R L M σ β → Label ι → List ω) :
    ∃ seen, Observed S observe init labels seen cfg := by
  induction h with
  | nil => exact ⟨[], .nil⟩
  | snoc _ hs ih =>
    obtain ⟨seen, ih⟩ := ih
    exact ⟨_, ih.snoc hs⟩

theorem Observed.append {cfg₁ : Config ι C A R L M σ β} {labels' : List (Label ι)} {seen' : List ω}
    (h : Observed S observe init labels seen cfg₁)
    (h' : Observed S observe cfg₁ labels' seen' cfg) :
    Observed S observe init (labels ++ labels') (seen ++ seen') cfg := by
  induction h' with
  | nil => simpa using h
  | snoc _ hs ih =>
    rw [← List.append_assoc, ← List.append_assoc]
    exact ih.snoc hs

/-- What is observed in a run is observed at one of its steps. -/
theorem Observed.mem (h : Observed S observe init labels seen cfg) {x : ω} (hx : x ∈ seen) :
    ∃ before label after cfg₁, labels = before ++ label :: after ∧ Run S init before cfg₁ ∧
      x ∈ observe cfg₁ label := by
  induction h with
  | nil => cases hx
  | @snoc labels seen cfg cfg' label h hs ih =>
    rcases List.mem_append.mp hx with hx | hx
    · obtain ⟨before, label', after, cfg₁, rfl, hrun, hx⟩ := ih hx
      exact ⟨before, label', after ++ [label], cfg₁, by simp, hrun, hx⟩
    · exact ⟨labels, label, [], cfg, rfl, h.run, hx⟩

end Observations

/-- What a step can do to the status of one task. -/
theorem Step.status_cases (h : Step S cfg label cfg') (j : ι) :
    cfg'.status j = cfg.status j ∨
    (∃ c, label = .start j ∧ cfg.status j = .idle ∧ S.starts j c ∧
      cfg'.status j = .running c (S.prog c) []) ∨
    (∃ c a k held r, label = .act j ∧ cfg.status j = .running c (.act a k) held ∧
      Admits S cfg (S.use a) ∧ S.does j a cfg.shared (some r) cfg'.shared ∧
      cfg'.status j = .running c (k r) ((S.use a).after held)) ∨
    (∃ c a k held, label = .panic j ∧ cfg.status j = .running c (.act a k) held ∧
      S.does j a cfg.shared none cfg'.shared ∧ cfg'.status j = .done none) ∨
    (∃ c b held, label = .finish j ∧ cfg.status j = .running c (.ret b) held ∧
      cfg'.status j = S.finished j b) := by
  cases h with
  | @start i c hidle hc =>
    by_cases hj : j = i
    · subst hj
      exact .inr (.inl ⟨c, rfl, hidle, hc, cfg.set_status_self ..⟩)
    · exact .inl (cfg.set_status_ne hj ..)
  | @act i c a k held r s hi hadm hdoes =>
    by_cases hj : j = i
    · subst hj
      exact .inr (.inr (.inl ⟨c, a, k, held, r, rfl, hi, hadm, hdoes, cfg.set_status_self ..⟩))
    · exact .inl (cfg.set_status_ne hj ..)
  | @panic i c a k held s hi _ hdoes =>
    by_cases hj : j = i
    · subst hj
      exact .inr (.inr (.inr (.inl ⟨c, a, k, held, rfl, hi, hdoes, cfg.set_status_self ..⟩)))
    · exact .inl (cfg.set_status_ne hj ..)
  | @finish i c b held hi =>
    by_cases hj : j = i
    · subst hj
      exact .inr (.inr (.inr (.inr ⟨c, b, held, rfl, hi, cfg.set_status_self ..⟩)))
    · exact .inl (cfg.set_status_ne hj ..)
  | environment => exact .inl rfl

theorem Step.status_eq (h : Step S cfg label cfg') {j : ι} (hj : label.task ≠ some j) :
    cfg'.status j = cfg.status j := by
  rcases h.status_cases j with hs | ⟨_, rfl, -⟩ | ⟨_, _, _, _, _, rfl, -⟩ | ⟨_, _, _, _, rfl, -⟩ |
    ⟨_, _, _, rfl, -⟩
  · exact hs
  all_goals exact absurd rfl hj

end Facts

section Exclusion
variable {ι C A : Type} {R : A → Type} {L M σ β : Type}
  [DecidableEq ι] [DecidableEq L] [DecidableEq M] {S : System ι C A R L M σ β}
  {cfg cfg' : Config ι C A R L M σ β} {label : Label ι} {s : σ}

/-- Different tasks hold a lock only in compatible modes. -/
def Exclusive (S : System ι C A R L M σ β) (cfg : Config ι C A R L M σ β) : Prop :=
  ∀ i j lock mode mode', i ≠ j → (lock, mode) ∈ (cfg.status i).held →
    (lock, mode') ∈ (cfg.status j).held → S.compatible mode mode'

/-- A guard that a task has after a step it had before, or it was admitted. -/
theorem Step.held_cases (h : Step S cfg label cfg') (j : ι) {lock : L} {mode : M}
    (hg : (lock, mode) ∈ (cfg'.status j).held) :
    (lock, mode) ∈ (cfg.status j).held ∨
      label = .act j ∧ Admits S cfg (.acquire lock mode) := by
  rcases h.status_cases j with hs | ⟨c, -, -, -, hs⟩ | ⟨c, a, k, held, r, hl, hi, hadm, -, hs⟩ |
    ⟨c, a, k, held, -, -, -, hs⟩ | ⟨c, b, held, -, -, hs⟩ <;> rw [hs] at hg
  · exact .inl hg
  · simp at hg
  · rw [Status.held_running] at hg
    rw [hi, Status.held_running]
    cases ha : S.use a with
    | none =>
      rw [ha] at hg
      exact .inl hg
    | acquire lock' mode' =>
      rw [ha] at hg hadm
      rcases List.mem_cons.mp hg with heq | hg
      · cases heq
        exact .inr ⟨hl, hadm⟩
      · exact .inl hg
    | release lock' mode' =>
      rw [ha] at hg
      exact .inl (List.mem_of_mem_erase hg)
  · simp at hg
  · rw [S.finished_held] at hg
    simp at hg

/-- The locks exclude as they should, in every reachable configuration. -/
theorem exclusive_of_reachable (hsymm : ∀ m m', S.compatible m m' → S.compatible m' m)
    (h : Reachable S s cfg) : Exclusive S cfg := by
  refine h.invariant (by simp [Exclusive, Config.initial]) ?_
  rintro cfg label cfg' - hex hstep i j lock mode mode' hij hi hj
  rcases hstep.held_cases i hi with hi | ⟨hl, hadm⟩ <;>
    rcases hstep.held_cases j hj with hj | ⟨hl', hadm'⟩
  · exact hex i j lock mode mode' hij hi hj
  · exact hadm' i mode hi
  · exact hsymm _ _ (hadm j mode' hj)
  · rw [hl] at hl'
    exact absurd (Label.act.inj hl') hij

end Exclusion

section Discipline
variable {ι C A : Type} {R : A → Type} {L M σ β P : Type}
  [DecidableEq ι] [DecidableEq L] [DecidableEq M] {S : System ι C A R L M σ β}
  {cfg : Config ι C A R L M σ β} {s : σ}

/-- The programs of a system follow a protocol whose states tell which guards a task holds. -/
structure Disciplined (S : System ι C A R L M σ β) (π : C → Protocol A R P)
    (final : C → P → β → Prop) (s₀ : P) (guards : P → List (L × M)) : Prop where
  start : guards s₀ = []
  follows : ∀ i c, S.starts i c → Prog.Follows (π c) (final c) s₀ (S.prog c)
  guards_next : ∀ c s a r, (π c).allows s a →
    guards ((π c).next s a r) = (S.use a).after (guards s)

/-- A running task is in a state of the protocol, and holds the guards of that state. Either it
has not done anything yet, or an action led to that state. -/
theorem Disciplined.follows_of_reachable {π : C → Protocol A R P} {final : C → P → β → Prop}
    {s₀ : P} {guards : P → List (L × M)} (hd : Disciplined S π final s₀ guards)
    (h : Reachable S s cfg) {i : ι} {c : C} {p : Prog A R β} {held : List (L × M)}
    (hi : cfg.status i = .running c p held) :
    ∃ st, Prog.Follows (π c) (final c) st p ∧ held = guards st ∧ S.starts i c ∧
      (st = s₀ ∧ p = S.prog c ∨
        ∃ st' a r, (π c).allows st' a ∧ st = (π c).next st' a r) := by
  revert i c p held
  refine h.invariant (I := fun cfg => ∀ {i c p held}, cfg.status i = .running c p held →
    ∃ st, Prog.Follows (π c) (final c) st p ∧ held = guards st ∧ S.starts i c ∧
      (st = s₀ ∧ p = S.prog c ∨
        ∃ st' a r, (π c).allows st' a ∧ st = (π c).next st' a r)) ?_ ?_
  · intro i c p held hi
    cases hi
  · rintro cfg label cfg' - ih hstep i c p held hi
    rcases hstep.status_cases i with hs | ⟨c', -, -, hc, hs⟩ | ⟨c', a, k, held', r, -, hi', -, -, hs⟩ |
      ⟨_, _, _, _, -, -, -, hs⟩ | ⟨_, b, _, -, -, hs⟩ <;> rw [hs] at hi
    · exact ih hi
    · cases hi
      exact ⟨s₀, hd.follows i _ hc, hd.start.symm, hc, .inl ⟨rfl, rfl⟩⟩
    · cases hi
      obtain ⟨st, hf, rfl, hc, -⟩ := ih hi'
      exact ⟨_, hf.2 r, (hd.guards_next _ _ _ _ hf.1).symm, hc, .inr ⟨st, a, r, hf.1, rfl⟩⟩
    · cases hi
    · unfold System.finished at hi
      split_ifs at hi

omit [DecidableEq ι] in
theorem Disciplined.restrict {π : C → Protocol A R P} {final : C → P → β → Prop} {s₀ : P}
    {guards : P → List (L × M)} (hd : Disciplined S π final s₀ guards) (Q : A → σ → Prop) :
    Disciplined (S.restrict Q) π final s₀ guards := ⟨hd.start, hd.follows, hd.guards_next⟩

end Discipline

section Play
variable {ι C A : Type} {R : A → Type} {L M σ β : Type}
  [DecidableEq ι] [DecidableEq L] [DecidableEq M] [Fintype ι]

inductive Move (ι C : Type) where
  | start (i : ι) (call : C)
  | go (i : ι)

/-- The tasks of a play with two. -/
abbrev firstTask : Fin 2 := 0

abbrev secondTask : Fin 2 := 1

/-- The tasks of a play with three. -/
abbrev Three.first : Fin 3 := 0

abbrev Three.second : Fin 3 := 1

abbrev Three.third : Fin 3 := 2

/-- The tasks of a play with four. -/
abbrev Four.first : Fin 4 := 0

abbrev Four.second : Fin 4 := 1

abbrev Four.third : Fin 4 := 2

abbrev Four.fourth : Fin 4 := 3

def admitted (S : System ι C A R L M σ β) [DecidableRel S.compatible]
    (cfg : Config ι C A R L M σ β) : LockUse L M → Bool
  | .acquire lock mode =>
    decide (∀ j, ∀ guard ∈ (cfg.status j).held, guard.1 = lock → S.compatible guard.2 mode)
  | _ => true

/-- Make a move, where the handler `h` says what actions do, if anything. -/
def play (S : System ι C A R L M σ β) [DecidableRel S.compatible]
    (h : ι → (a : A) → σ → Option (Option (R a) × σ)) (cfg : Config ι C A R L M σ β) :
    Move ι C → Option (Config ι C A R L M σ β)
  | .start i c =>
    match cfg.status i with
    | .idle => some (cfg.set i cfg.shared (.running c (S.prog c) []))
    | _ => none
  | .go i =>
    match cfg.status i with
    | .running _ (.ret b) _ => some (cfg.set i cfg.shared (S.finished i b))
    | .running c (.act a k) held =>
      if admitted S cfg (S.use a) then
        match h i a cfg.shared with
        | some (some r, s) => some (cfg.set i s (.running c (k r) ((S.use a).after held)))
        | some (none, s) => some (cfg.set i s (.done none))
        | none => none
      else none
    | _ => none

def plays (S : System ι C A R L M σ β) [DecidableRel S.compatible]
    (h : ι → (a : A) → σ → Option (Option (R a) × σ)) (cfg : Config ι C A R L M σ β)
    (moves : List (Move ι C)) : Option (Config ι C A R L M σ β) :=
  moves.foldlM (play S h) cfg

variable {S : System ι C A R L M σ β} [DecidableRel S.compatible]
  {h : ι → (a : A) → σ → Option (Option (R a) × σ)} {cfg cfg' : Config ι C A R L M σ β} {s : σ}

omit [DecidableEq ι] [DecidableEq M] in
theorem admits_of_admitted {use : LockUse L M} (hadm : admitted S cfg use) : Admits S cfg use := by
  cases use with
  | acquire lock mode => exact fun j mode' hg => of_decide_eq_true hadm j _ hg rfl
  | none | release => trivial

/-- What kind of step a move is. -/
def labelOf (h : ι → (a : A) → σ → Option (Option (R a) × σ)) (cfg : Config ι C A R L M σ β) :
    Move ι C → Label ι
  | .start i _ => .start i
  | .go i =>
    match cfg.status i with
    | .running _ (.act a _) _ =>
      match h i a cfg.shared with
      | some (none, _) => .panic i
      | _ => .act i
    | _ => .finish i

/-- What the handler says is what the actions may do. -/
def Handles (S : System ι C A R L M σ β) (h : ι → (a : A) → σ → Option (Option (R a) × σ)) : Prop :=
  ∀ i a s answer s', h i a s = some (answer, s') → S.does i a s answer s'

/-- The handler, held to actions that `P` admits. -/
def guarded (P : A → σ → Prop) [∀ a s, Decidable (P a s)]
    (h : ι → (a : A) → σ → Option (Option (R a) × σ)) (i : ι) (a : A) (s : σ) :
    Option (Option (R a) × σ) := if P a s then h i a s else none

omit [DecidableEq ι] [DecidableEq L] [DecidableEq M] [Fintype ι] [DecidableRel S.compatible] in
theorem Handles.guarded (hdoes : Handles S h) (P : A → σ → Prop) [∀ a s, Decidable (P a s)] :
    Handles (S.restrict P) (guarded P h) := by
  intro i a s answer s' ha
  unfold Tasks.guarded at ha
  split_ifs at ha with hP
  exact ⟨hP, hdoes i a s answer s' ha⟩

theorem step_of_play (hdoes : Handles S h) {move : Move ι C}
    (hstarts : ∀ i c, move = .start i c → S.starts i c) (hp : play S h cfg move = some cfg') :
    Step S cfg (labelOf h cfg move) cfg' := by
  cases move with
  | start i c =>
    simp only [play] at hp
    split at hp
    · rename_i hi
      cases hp
      exact .start hi (hstarts i c rfl)
    · cases hp
  | go i =>
    simp only [play] at hp
    split at hp
    · rename_i hi
      cases hp
      simp only [labelOf, hi]
      exact .finish hi
    · rename_i c a k held hi
      split_ifs at hp with hadm
      simp only [labelOf, hi]
      rcases ha : h i a cfg.shared with _ | ⟨_ | r, s⟩ <;> rw [ha] at hp <;> cases hp
      · exact .panic hi (admits_of_admitted hadm) (hdoes i a _ _ _ ha)
      · exact .act hi (admits_of_admitted hadm) (hdoes i a _ _ _ ha)
    · cases hp

theorem reachable_of_plays (hdoes : Handles S h)
    {moves : List (Move ι C)} (hstarts : ∀ i c, Move.start i c ∈ moves → S.starts i c)
    (hr : Reachable S s cfg) (hp : plays S h cfg moves = some cfg') : Reachable S s cfg' := by
  induction moves generalizing cfg with
  | nil =>
    cases hp
    exact hr
  | cons move moves ih =>
    rw [plays, List.foldlM_cons, Option.bind_eq_bind, Option.bind_eq_some_iff] at hp
    obtain ⟨cfg₁, hfirst, hrest⟩ := hp
    have hstep := step_of_play hdoes (fun i c hm => hstarts i c (hm ▸ List.mem_cons_self)) hfirst
    exact ih (fun i c hm => hstarts i c (List.mem_cons_of_mem _ hm)) (hr.step hstep) hrest

section Watch
variable {ω : Type} {observe : Config ι C A R L M σ β → Label ι → List ω} {labels : List (Label ι)}
  {seen : List ω}

/-- Make moves, and note the labels of the steps and what is observed. -/
def watch (S : System ι C A R L M σ β) [DecidableRel S.compatible]
    (h : ι → (a : A) → σ → Option (Option (R a) × σ)) (observe : Config ι C A R L M σ β → Label ι → List ω)
    (cfg : Config ι C A R L M σ β) :
    List (Move ι C) → Option (List (Label ι) × List ω × Config ι C A R L M σ β)
  | [] => some ([], [], cfg)
  | move :: moves => do
    let cfg' ← play S h cfg move
    let (labels, seen, last) ← watch S h observe cfg' moves
    return (labelOf h cfg move :: labels, observe cfg (labelOf h cfg move) ++ seen, last)

theorem observed_of_watch (hdoes : Handles S h)
    {moves : List (Move ι C)} (hstarts : ∀ i c, Move.start i c ∈ moves → S.starts i c)
    (hw : watch S h observe cfg moves = some (labels, seen, cfg')) :
    Observed S observe cfg labels seen cfg' := by
  induction moves generalizing cfg labels seen with
  | nil =>
    cases hw
    exact .nil
  | cons move moves ih =>
    simp only [watch, Option.bind_eq_bind, Option.bind_eq_some_iff] at hw
    obtain ⟨cfg₁, hfirst, ⟨labels', seen', last⟩, hrest, hlast⟩ := hw
    cases hlast
    have hstep := step_of_play hdoes (fun i c hm => hstarts i c (hm ▸ List.mem_cons_self)) hfirst
    have hone : Observed S observe cfg [labelOf h cfg move] (observe cfg (labelOf h cfg move)) cfg₁ :=
      Observed.nil.snoc hstep
    exact hone.append (ih (fun i c hm => hstarts i c (List.mem_cons_of_mem _ hm)) hrest)

end Watch

section Around
variable {E ω : Type} {around : E → (ι → Status C A R L M β) → σ → Option σ}
  {observe : Config ι C A R L M σ β → Label ι → List ω} {labels : List (Label ι)} {seen : List ω}

/-- A move of a task, or an event around the tasks, with the label of the step. -/
def playAround (S : System ι C A R L M σ β) [DecidableRel S.compatible]
    (h : ι → (a : A) → σ → Option (Option (R a) × σ))
    (around : E → (ι → Status C A R L M β) → σ → Option σ) (cfg : Config ι C A R L M σ β) :
    Move ι C ⊕ E → Option (Label ι × Config ι C A R L M σ β)
  | .inl move => (play S h cfg move).map fun cfg' => (labelOf h cfg move, cfg')
  | .inr e => (around e cfg.status cfg.shared).map fun s => (.environment, ⟨s, cfg.status⟩)

/-- Make moves while something happens around the tasks, and note what is observed. -/
def watchAround (S : System ι C A R L M σ β) [DecidableRel S.compatible]
    (h : ι → (a : A) → σ → Option (Option (R a) × σ))
    (around : E → (ι → Status C A R L M β) → σ → Option σ)
    (observe : Config ι C A R L M σ β → Label ι → List ω) (cfg : Config ι C A R L M σ β) :
    List (Move ι C ⊕ E) → Option (List (Label ι) × List ω × Config ι C A R L M σ β)
  | [] => some ([], [], cfg)
  | turn :: turns => do
    let (label, cfg') ← playAround S h around cfg turn
    let (labels, seen, last) ← watchAround S h around observe cfg' turns
    return (label :: labels, observe cfg label ++ seen, last)

/-- What the events do is what may happen around the tasks. -/
def Surrounds (S : System ι C A R L M σ β)
    (around : E → (ι → Status C A R L M β) → σ → Option σ) : Prop :=
  ∀ e status s s', around e status s = some s' → S.environment status s s'

theorem observed_of_watchAround (hdoes : Handles S h) (haround : Surrounds S around)
    {turns : List (Move ι C ⊕ E)} (hstarts : ∀ i c, .inl (.start i c) ∈ turns → S.starts i c)
    (hw : watchAround S h around observe cfg turns = some (labels, seen, cfg')) :
    Observed S observe cfg labels seen cfg' := by
  induction turns generalizing cfg labels seen with
  | nil =>
    cases hw
    exact .nil
  | cons turn turns ih =>
    simp only [watchAround, Option.bind_eq_bind, Option.bind_eq_some_iff] at hw
    obtain ⟨⟨label, cfg₁⟩, hfirst, ⟨labels', seen', last⟩, hrest, hlast⟩ := hw
    cases hlast
    have hstep : Step S cfg label cfg₁ := by
      cases turn with
      | inl move =>
        obtain ⟨cfg₂, hplay, heq⟩ := Option.map_eq_some_iff.mp hfirst
        cases heq
        exact step_of_play hdoes (fun i c hm => hstarts i c (hm ▸ List.mem_cons_self)) hplay
      | inr e =>
        obtain ⟨s, hs, heq⟩ := Option.map_eq_some_iff.mp hfirst
        cases heq
        exact .environment (haround e _ _ _ hs)
    have hone : Observed S observe cfg [label] (observe cfg label) cfg₁ := Observed.nil.snoc hstep
    exact hone.append (ih (fun i c hm => hstarts i c (List.mem_cons_of_mem _ hm)) hrest)

end Around

end Play

section Waiting
variable {ι C A : Type} {R : A → Type} {L M σ β : Type}

/-- The next action of the task is to take the lock. -/
def Awaits (S : System ι C A R L M σ β) (cfg : Config ι C A R L M σ β) (i : ι) (lock : L) :
    Prop :=
  ∃ c a k held mode, cfg.status i = .running c (.act a k) held ∧ S.use a = .acquire lock mode

def Holds (cfg : Config ι C A R L M σ β) (j : ι) (lock : L) : Prop :=
  ∃ mode, (lock, mode) ∈ (cfg.status j).held

/-- The task `i` awaits a lock that `j` holds. -/
def BlockedBy (S : System ι C A R L M σ β) (cfg : Config ι C A R L M σ β) (i j : ι) : Prop :=
  ∃ lock, Awaits S cfg i lock ∧ Holds cfg j lock

end Waiting

end Tasks

import RustKV.LibTasks

/-! Tasks that loop around calls. Such a task is one long program: between its calls it performs
actions of the loop, whose answers tell it which call to make. The system of the loops refines the
system in which a task rests between its calls and starts one after the other. -/

/-- The actions of the calls, and those of the loop around them. -/
inductive LoopAct (A O : Type) where
  | inner (a : A)
  | outer (o : O)

def LoopAct.Answer {A O : Type} (R : A → Type) (U : O → Type) : LoopAct A O → Type
  | .inner a => R a
  | .outer o => U o

namespace Tasks
open Prog
variable {ι C C' A O : Type} {R : A → Type} {U : O → Type} {L M σ σ' β β' ω α : Type}

/-- What a task has to do: nothing before the next answer of its loop, the rest of a call, or no
call any more. -/
inductive Stage (C A : Type) (R : A → Type) (β : Type) where
  | resting
  | calling (call : C) (rest : Prog A R β)
  | apart

/-- A program that makes the calls of the system, which the answers to the actions of its loop
begin. The actions of the loop between the calls are plain, those after the last one are tame. -/
inductive Loops (S : System ι C A R L M σ β) (plain tame : O → Prop) (enters : (o : O) → U o → Option C)
    (i : ι) : Stage C A R β → Prog (LoopAct A O) (LoopAct.Answer R U) α → Prop
  | ret (x : α) : Loops S plain tame enters i .resting (.ret x)
  | outer {o : O} {k : U o → Prog (LoopAct A O) (LoopAct.Answer R U) α} : plain o →
      (∀ r, enters o r = none → Loops S plain tame enters i .resting (k r)) →
      (∀ r c, enters o r = some c → S.starts i c) →
      (∀ r c, enters o r = some c → Loops S plain tame enters i (.calling c (S.prog c)) (k r)) →
      Loops S plain tame enters i .resting (.act (.outer o) k)
  | inner {c : C} {a : A} {p : R a → Prog A R β}
      {k : R a → Prog (LoopAct A O) (LoopAct.Answer R U) α} :
      (∀ r, Loops S plain tame enters i (.calling c (p r)) (k r)) →
      Loops S plain tame enters i (.calling c (.act a p)) (.act (.inner a) k)
  | back {c : C} {x : β} {p : Prog (LoopAct A O) (LoopAct.Answer R U) α} : S.again i x = true →
      Loops S plain tame enters i .resting p → Loops S plain tame enters i (.calling c (.ret x)) p
  | leave {c : C} {x : β} {p : Prog (LoopAct A O) (LoopAct.Answer R U) α} : S.again i x = false →
      Loops S plain tame enters i .apart p → Loops S plain tame enters i (.calling c (.ret x)) p
  | apart {p : Prog (LoopAct A O) (LoopAct.Answer R U) α} :
      p.Only (fun b => ∃ o, b = .outer o ∧ tame o) → Loops S plain tame enters i .apart p

section Programs
variable {S : System ι C A R L M σ β} {plain tame : O → Prop} {enters : (o : O) → U o → Option C} {i : ι}

/-- A call within the program, and what comes after it. -/
theorem loops_bind {c : C} {p : Prog A R β} {f : β → Prog (LoopAct A O) (LoopAct.Answer R U) α}
    (hback : ∀ x, S.again i x = true → Loops S plain tame enters i .resting (f x))
    (hleave : ∀ x, S.again i x = false → Loops S plain tame enters i .apart (f x)) :
    Loops S plain tame enters i (.calling c p)
      (Prog.lift (S := LoopAct.Answer R U) LoopAct.inner (fun _ answer => answer) p >>= f) := by
  induction p with
  | ret x =>
    cases hx : S.again i x with
    | true => exact .back hx (hback x hx)
    | false => exact .leave hx (hleave x hx)
  | act a k ih => exact .inner ih

end Programs

section Refinement
variable [DecidableEq ι] [DecidableEq L] [DecidableEq M]

/-- A step of the loops as the calls see it: nothing, or something that their surroundings do. -/
def Beside (S : System ι C A R L M σ β) (view : σ' → σ) (s s' : σ') : Prop :=
  view s' = view s ∨ ∀ status, S.environment status (view s) (view s')

/-- `S'` is the system of the loops. The shared state notes the call that a task is in. -/
structure Hosts (S' : System ι C' (LoopAct A O) (LoopAct.Answer R U) L M σ' β')
    (S : System ι C A R L M σ β) (plain tame : O → Prop) (enters : (o : O) → U o → Option C)
    (view : σ' → σ) (current : σ' → ι → Option C) : Prop where
  compatible : S'.compatible = S.compatible
  once : ∀ i b, S'.again i b = false
  loops : ∀ i c, S'.starts i c →
    Loops S plain tame enters i .resting (S'.prog c) ∨ Loops S plain tame enters i .apart (S'.prog c)
  use_inner : ∀ a, S'.use (.inner a) = S.use a
  use_plain : ∀ o, plain o → S'.use (.outer o) = .none
  inner : ∀ i a s r s', S'.does i (.inner a) s r s' →
    S.does i a (view s) r (view s') ∧ current s' = current s
  outer : ∀ i o s r s', plain o ∨ tame o → S'.does i (.outer o) s r s' → ∃ answer, r = some answer ∧
    Beside S view s s' ∧ (∀ j, j ≠ i → current s' j = current s j) ∧
    ∀ c, enters o answer = some c → current s' i = some c
  environment : ∀ status s s', S'.environment status s s' →
    Beside S view s s' ∧ current s' = current s

/-- A task without a call. -/
def Status.Still : Status C A R L M β → Prop
  | .running .. => False
  | _ => True

variable {S' : System ι C' (LoopAct A O) (LoopAct.Answer R U) L M σ' β'} {S : System ι C A R L M σ β}
  {plain tame : O → Prop} {enters : (o : O) → U o → Option C} {view : σ' → σ}
  {current : σ' → ι → Option C}

/-- The status of a task that makes calls, and that of its loop, which is in the call `note`. -/
def MirrorsStatus (S : System ι C A R L M σ β) (plain tame : O → Prop) (enters : (o : O) → U o → Option C)
    (i : ι) (note : Option C) : Status C' (LoopAct A O) (LoopAct.Answer R U) L M β' →
    Status C A R L M β → Prop
  | .idle, st => st = .idle
  | .running _ p held, st => (Loops S plain tame enters i .resting p ∧ st = .idle ∧ held = []) ∨
      (∃ c q, Loops S plain tame enters i (.calling c q) p ∧ st = .running c q held ∧ note = some c) ∨
      (Loops S plain tame enters i .apart p ∧ st.Still)
  | .done _, st => st.Still

omit [DecidableEq ι] [DecidableEq L] [DecidableEq M] in
/-- The next action of a call is the next one of its loop. -/
theorem MirrorsStatus.running_act {S : System ι C A R L M σ β} {plain tame : O → Prop}
    {enters : (o : O) → U o → Option C} {i : ι} {note : Option C}
    {st' : Status C' (LoopAct A O) (LoopAct.Answer R U) L M β'} {c : C} {a : A} {q : R a → Prog A R β}
    {held : List (L × M)}
    (h : MirrorsStatus S plain tame enters i note st' (.running c (.act a q) held)) :
    ∃ c' k, st' = .running c' (.act (.inner a) k) held ∧ note = some c := by
  cases st' with
  | idle => cases h
  | done => exact h.elim
  | running c' p held' =>
    rcases h with ⟨-, heq, -⟩ | ⟨c₁, q₁, hloops, heq, hnote⟩ | ⟨-, hstill⟩
    · cases heq
    · cases heq
      cases hloops with
      | inner => exact ⟨c', _, rfl, hnote⟩
    · exact hstill.elim

/-- The configuration `cfg` of the calls is what the configuration `cfg'` of the loops does. -/
structure Mirrors (S : System ι C A R L M σ β) (plain tame : O → Prop) (enters : (o : O) → U o → Option C)
    (view : σ' → σ) (current : σ' → ι → Option C)
    (cfg' : Config ι C' (LoopAct A O) (LoopAct.Answer R U) L M σ' β')
    (cfg : Config ι C A R L M σ β) : Prop where
  shared : cfg.shared = view cfg'.shared
  status : ∀ i, MirrorsStatus S plain tame enters i (current cfg'.shared i) (cfg'.status i) (cfg.status i)

/-- What is observed of the loops is what is observed of the calls. -/
structure Watches (S : System ι C A R L M σ β) (plain tame : O → Prop) (enters : (o : O) → U o → Option C)
    (view : σ' → σ) (current : σ' → ι → Option C)
    (observe' : Config ι C' (LoopAct A O) (LoopAct.Answer R U) L M σ' β' → Label ι → List ω)
    (observe : Config ι C A R L M σ β → Label ι → List ω) : Prop where
  calls : ∀ cfg i, observe cfg (.start i) = [] ∧ observe cfg (.finish i) = []
  surroundings : ∀ cfg, observe cfg .environment = []
  loops : ∀ cfg' i, observe' cfg' (.start i) = [] ∧ observe' cfg' (.finish i) = []
  surroundings' : ∀ cfg', observe' cfg' .environment = []
  outer : ∀ cfg' i c' o k held, cfg'.status i = .running c' (.act (.outer o) k) held →
    observe' cfg' (.act i) = []
  inner : ∀ cfg' cfg i c' a k held c q, cfg.shared = view cfg'.shared →
    cfg'.status i = .running c' (.act (.inner a) k) held →
    cfg.status i = .running c (.act a q) held → current cfg'.shared i = some c →
    observe' cfg' (.act i) = observe cfg (.act i) ∧ observe' cfg' (.panic i) = observe cfg (.panic i)

section Mirroring
variable {cfg' cfg₂' : Config ι C' (LoopAct A O) (LoopAct.Answer R U) L M σ' β'}
  {cfg : Config ι C A R L M σ β} {label : Label ι} {i : ι}
  {observe' : Config ι C' (LoopAct A O) (LoopAct.Answer R U) L M σ' β' → Label ι → List ω}
  {observe : Config ι C A R L M σ β → Label ι → List ω}

omit [DecidableEq ι] [DecidableEq L] [DecidableEq M] in
theorem MirrorsStatus.held_eq {note : Option C}
    {st' : Status C' (LoopAct A O) (LoopAct.Answer R U) L M β'} {st : Status C A R L M β}
    (h : MirrorsStatus S plain tame enters i note st' st) : st.held = [] ∨ st.held = st'.held := by
  have hstill (hst : st.Still) : st.held = [] := by
    cases st with
    | running => exact hst.elim
    | idle | done => rfl
  cases st' with
  | idle =>
    left
    rw [show st = .idle from h]
    rfl
  | done => exact .inl (hstill h)
  | running c' p held =>
    rcases h with ⟨-, rfl, -⟩ | ⟨c, q, -, rfl, -⟩ | ⟨-, hst⟩
    · exact .inl rfl
    · exact .inr rfl
    · exact .inl (hstill hst)

omit [DecidableEq ι] [DecidableEq L] [DecidableEq M] in
/-- What the loops admit the calls admit. -/
theorem Mirrors.admits (h : Mirrors S plain tame enters view current cfg' cfg)
    (hosts : Hosts S' S plain tame enters view current) {use : LockUse L M} (hadm : Admits S' cfg' use) :
    Admits S cfg use := by
  cases use with
  | none | release => trivial
  | acquire lock mode =>
    intro j mode' hmem
    have hmem' : (lock, mode') ∈ (cfg'.status j).held := by
      rcases (h.status j).held_eq with hheld | hheld
      · rw [hheld] at hmem
        cases hmem
      · rwa [hheld] at hmem
    rw [← hosts.compatible]
    exact hadm j mode' hmem'

omit [DecidableEq L] [DecidableEq M] in
/-- One task moves on, in the loops and in the calls. -/
theorem Mirrors.update (h : Mirrors S plain tame enters view current cfg' cfg) {s' : σ'} {s : σ}
    {st' : Status C' (LoopAct A O) (LoopAct.Answer R U) L M β'} {st : Status C A R L M β}
    (hs : s = view s') (hcurrent : ∀ j, j ≠ i → current s' j = current cfg'.shared j)
    (hst : MirrorsStatus S plain tame enters i (current s' i) st' st) :
    Mirrors S plain tame enters view current (cfg'.set i s' st') (cfg.set i s st) := by
  refine ⟨hs, fun j => ?_⟩
  by_cases hj : j = i
  · subst hj
    rw [Config.set_status_self, Config.set_status_self]
    exact hst
  · rw [Config.set_status_ne _ hj, Config.set_status_ne _ hj, Config.set_shared, hcurrent j hj]
    exact h.status j

/-- What happens beside the calls. -/
theorem observed_beside (hw : Watches S plain tame enters view current observe' observe) {s s' : σ'}
    (hs : cfg.shared = view s) (hbeside : Beside S view s s') :
    ∃ labels, Observed S observe cfg labels [] ⟨view s', cfg.status⟩ := by
  rcases hbeside with heq | henv
  · refine ⟨[], ?_⟩
    rw [heq, ← hs]
    exact .nil
  · refine ⟨[.environment], ?_⟩
    rw [← hs] at henv
    have hstep : Step S cfg .environment ⟨view s', cfg.status⟩ := .environment (henv cfg.status)
    have hrun : Observed S observe cfg [.environment] (observe cfg .environment) ⟨view s', cfg.status⟩ :=
      Observed.nil.snoc hstep
    rwa [hw.surroundings] at hrun

/-- A task between its calls, a task without calls, or one in the middle of a call. -/
def AtLoop (S : System ι C A R L M σ β) (plain tame : O → Prop) (enters : (o : O) → U o → Option C) (i : ι)
    (note : Option C) (p : Prog (LoopAct A O) (LoopAct.Answer R U) β') (held : List (L × M))
    (st : Status C A R L M β) : Prop :=
  (Loops S plain tame enters i .resting p ∧ st = .idle ∧ held = []) ∨
  (Loops S plain tame enters i .apart p ∧ st.Still) ∨
  ∃ c a q k, p = .act (.inner a) k ∧ (∀ r, Loops S plain tame enters i (.calling c (q r)) (k r)) ∧
    st = .running c (.act a q) held ∧ note = some c

omit [DecidableEq ι] [DecidableEq L] [DecidableEq M] in
theorem AtLoop.plain_or_tame {note : Option C} {o : O}
    {k : U o → Prog (LoopAct A O) (LoopAct.Answer R U) β'} {held : List (L × M)}
    {st : Status C A R L M β}
    (h : AtLoop S plain tame enters i note (.act (.outer o) k) held st) : plain o ∨ tame o := by
  rcases h with ⟨hloops, -⟩ | ⟨hloops, -⟩ | ⟨c, a, q, k', heq, -⟩
  · cases hloops with
    | outer hplain => exact .inl hplain
  · cases hloops with
    | apart honly =>
      obtain ⟨o', ho, htame⟩ := honly.1
      cases ho
      exact .inr htame
  · cases heq

/-- A call that has returned is finished. -/
theorem Mirrors.rest (hw : Watches S plain tame enters view current observe' observe)
    (hclean : ∀ i c x held, cfg.status i = .running c (.ret x) held → held = [])
    (h : Mirrors S plain tame enters view current cfg' cfg) {c' : C'}
    {p : Prog (LoopAct A O) (LoopAct.Answer R U) β'} {held : List (L × M)}
    (hi : cfg'.status i = .running c' p held) : ∃ labels cfg₁, Observed S observe cfg labels [] cfg₁ ∧
      Mirrors S plain tame enters view current cfg' cfg₁ ∧
      AtLoop S plain tame enters i (current cfg'.shared i) p held (cfg₁.status i) := by
  have hst := h.status i
  rw [hi] at hst
  rcases hst with ⟨hloops, hidle, hheld⟩ | ⟨c, q, hloops, hrunning, hnote⟩ | ⟨hloops, hstill⟩
  · exact ⟨[], cfg, .nil, h, .inl ⟨hloops, hidle, hheld⟩⟩
  · -- the call may have returned
    have hfinish {x : β} (hq : q = .ret x) : held = [] ∧ Observed S observe cfg [.finish i] []
        (cfg.set i cfg.shared (S.finished i x)) := by
      subst hq
      refine ⟨hclean i c x held hrunning, ?_⟩
      have hstep : Step S cfg (.finish i) (cfg.set i cfg.shared (S.finished i x)) := .finish hrunning
      have hrun : Observed S observe cfg [.finish i] (observe cfg (.finish i))
          (cfg.set i cfg.shared (S.finished i x)) := Observed.nil.snoc hstep
      rwa [(hw.calls _ _).2] at hrun
    have hself : cfg' = cfg'.set i cfg'.shared (cfg'.status i) := by
      unfold Config.set
      rw [Function.update_eq_self]
    cases hloops with
    | inner hnext => exact ⟨[], cfg, .nil, h, .inr (.inr ⟨c, _, _, _, rfl, hnext, hrunning, hnote⟩)⟩
    | back hagain hrest =>
      obtain ⟨hheld, hrun⟩ := hfinish rfl
      have hidle : S.finished i _ = .idle := if_pos hagain
      refine ⟨_, _, hrun, ?_, .inl ⟨hrest, ?_, hheld⟩⟩
      · rw [hself]
        refine h.update h.shared (fun _ _ => rfl) ?_
        rw [hi, hidle]
        exact .inl ⟨hrest, rfl, hheld⟩
      · rw [Config.set_status_self, hidle]
    | leave hagain hrest =>
      obtain ⟨hheld, hrun⟩ := hfinish rfl
      have hdone : S.finished i _ = .done (some _) := if_neg (by simpa using hagain)
      refine ⟨_, _, hrun, ?_, .inr (.inl ⟨hrest, ?_⟩)⟩
      · rw [hself]
        refine h.update h.shared (fun _ _ => rfl) ?_
        rw [hi, hdone]
        exact .inr (.inr ⟨hrest, trivial⟩)
      · rw [Config.set_status_self, hdone]
        trivial
  · exact ⟨[], cfg, .nil, h, .inr (.inl ⟨hloops, hstill⟩)⟩

omit [DecidableEq L] [DecidableEq M] in
/-- Only the loop moves on. -/
theorem Mirrors.update_loop (h : Mirrors S plain tame enters view current cfg' cfg) {s' : σ'}
    {st' : Status C' (LoopAct A O) (LoopAct.Answer R U) L M β'} (hs : view s' = view cfg'.shared)
    (hcurrent : ∀ j, j ≠ i → current s' j = current cfg'.shared j)
    (hst : MirrorsStatus S plain tame enters i (current s' i) st' (cfg.status i)) :
    Mirrors S plain tame enters view current (cfg'.set i s' st') cfg := by
  have hself : cfg = cfg.set i cfg.shared (cfg.status i) := by
    unfold Config.set
    rw [Function.update_eq_self]
  rw [hself]
  exact h.update (h.shared.trans hs.symm) hcurrent hst

/-- Every step of the loops is one that the calls make, or that happens beside them. -/
theorem Mirrors.step (hosts : Hosts S' S plain tame enters view current)
    (hw : Watches S plain tame enters view current observe' observe)
    (hclean : ∀ i c x held, cfg.status i = .running c (.ret x) held → held = [])
    (h : Mirrors S plain tame enters view current cfg' cfg) (hstep : Step S' cfg' label cfg₂') :
    ∃ labels cfg₂, Observed S observe cfg labels (observe' cfg' label) cfg₂ ∧
      Mirrors S plain tame enters view current cfg₂' cfg₂ := by
  cases hstep with
  | @start i c' hidle hc =>
    rw [(hw.loops _ _).1]
    have hst := h.status i
    rw [hidle] at hst
    have hst : cfg.status i = .idle := hst
    refine ⟨[], cfg, .nil, h.update_loop rfl (fun _ _ => rfl) ?_⟩
    rcases hosts.loops i c' hc with hloops | hloops
    · exact .inl ⟨hloops, hst, rfl⟩
    · refine .inr (.inr ⟨hloops, ?_⟩)
      rw [hst]
      trivial
  | @act i c' b k held r s' hi hadm hdoes =>
    obtain ⟨labels, cfg₁, hrun, h₁, hat⟩ := h.rest hw hclean hi
    cases b with
    | outer o =>
      rw [hw.outer _ _ _ _ _ _ hi]
      obtain ⟨answer, hanswer, hbeside, hother, hnote⟩ :=
        hosts.outer _ _ _ _ _ hat.plain_or_tame hdoes
      obtain rfl := Option.some.inj hanswer
      obtain ⟨labels', hrun'⟩ := observed_beside hw h₁.shared hbeside
      have hbefore := hrun.append hrun'
      rw [List.append_nil] at hbefore
      have h₂ {st' : Status C' (LoopAct A O) (LoopAct.Answer R U) L M β'}
          (hst : MirrorsStatus S plain tame enters i (current s' i) st' (cfg₁.status i)) :
          Mirrors S plain tame enters view current (cfg'.set i s' st') ⟨view s', cfg₁.status⟩ := by
        have hself : (⟨view s', cfg₁.status⟩ : Config ι C A R L M σ β) =
            cfg₁.set i (view s') (cfg₁.status i) := by
          unfold Config.set
          rw [Function.update_eq_self]
        rw [hself]
        exact h₁.update rfl hother hst
      rcases hat with ⟨hloops, hidle, hheld⟩ | ⟨hloops, hstill⟩ | ⟨c, a, q, k', heq, -⟩
      · cases hloops with
        | outer hplain hnone hstarts hsome =>
          have hafter : (S'.use (.outer o)).after held = [] := by
            rw [hosts.use_plain o hplain, hheld]
            rfl
          cases henters : enters o r with
          | none =>
            exact ⟨_, _, hbefore, h₂ (.inl ⟨hnone r henters, hidle, hafter⟩)⟩
          | some c =>
            -- the answer begins a call
            have hstart : Step S ⟨view s', cfg₁.status⟩ (.start i)
                (Config.set ⟨view s', cfg₁.status⟩ i (view s') (.running c (S.prog c) [])) :=
              .start hidle (hstarts r c henters)
            have hmore := hbefore.snoc hstart
            rw [(hw.calls _ _).1, List.append_nil] at hmore
            refine ⟨_, _, hmore, h₁.update rfl hother (.inr (.inl ⟨c, _, hsome r c henters, ?_, ?_⟩))⟩
            · rw [hafter]
            · exact hnote c henters
      · cases hloops with
        | apart honly => exact ⟨_, _, hbefore, h₂ (.inr (.inr ⟨.apart (honly.2 r), hstill⟩))⟩
      · cases heq
    | inner a =>
      obtain ⟨hdoes, hcurrent⟩ := hosts.inner _ _ _ _ _ hdoes
      rcases hat with ⟨hloops, -⟩ | ⟨hloops, -⟩ | ⟨c, a', q, k', heq, hnext, hrunning, hnote⟩
      · cases hloops
      · cases hloops with
        | apart honly =>
          obtain ⟨o, ho, -⟩ := honly.1
          cases ho
      · cases heq
        rw [(hw.inner _ _ _ _ _ _ _ _ _ h₁.shared hi hrunning hnote).1]
        have hadm' := h₁.admits hosts hadm
        rw [hosts.use_inner] at hadm'
        rw [← h₁.shared] at hdoes
        refine ⟨_, _, hrun.snoc (.act hrunning hadm' hdoes), ?_⟩
        refine h₁.update rfl (fun j _ => by rw [hcurrent]) (.inr (.inl ⟨c, q r, hnext r, ?_, ?_⟩))
        · rw [hosts.use_inner]
        · rw [hcurrent]
          exact hnote
  | @panic i c' b k held s' hi hadm hdoes =>
    obtain ⟨labels, cfg₁, hrun, h₁, hat⟩ := h.rest hw hclean hi
    cases b with
    | outer o =>
      obtain ⟨answer, hanswer, -⟩ := hosts.outer _ _ _ _ _ hat.plain_or_tame hdoes
      cases hanswer
    | inner a =>
      obtain ⟨hdoes, hcurrent⟩ := hosts.inner _ _ _ _ _ hdoes
      rcases hat with ⟨hloops, -⟩ | ⟨hloops, -⟩ | ⟨c, a', q, k', heq, hnext, hrunning, hnote⟩
      · cases hloops
      · cases hloops with
        | apart honly =>
          obtain ⟨o, ho, -⟩ := honly.1
          cases ho
      · cases heq
        rw [(hw.inner _ _ _ _ _ _ _ _ _ h₁.shared hi hrunning hnote).2]
        have hadm' := h₁.admits hosts hadm
        rw [hosts.use_inner] at hadm'
        rw [← h₁.shared] at hdoes
        refine ⟨_, _, hrun.snoc (.panic hrunning hadm' hdoes), ?_⟩
        exact h₁.update rfl (fun j _ => by rw [hcurrent]) trivial
  | @finish i c' b held hi =>
    obtain ⟨labels, cfg₁, hrun, h₁, hat⟩ := h.rest hw hclean hi
    rw [(hw.loops _ _).2]
    refine ⟨_, _, hrun, h₁.update_loop rfl (fun _ _ => rfl) ?_⟩
    have hdone : S'.finished i b = .done (some b) := if_neg (by simp [hosts.once i b])
    rw [hdone]
    rcases hat with ⟨-, hidle, -⟩ | ⟨-, hstill⟩ | ⟨c, a', q, k', heq, -⟩
    · change (cfg₁.status i).Still
      rw [hidle]
      trivial
    · exact hstill
    · cases heq
  | @environment s' henv =>
    obtain ⟨hbeside, hcurrent⟩ := hosts.environment _ _ _ henv
    obtain ⟨labels, hrun⟩ := observed_beside hw h.shared hbeside
    rw [hw.surroundings']
    refine ⟨labels, _, hrun, rfl, fun j => ?_⟩
    change MirrorsStatus S plain tame enters j (current s' j) _ _
    rw [hcurrent]
    exact h.status j

/-- The loops refine the calls: what they do in a run, the tasks do that start one call after the
other, and what is observed of them is the same. -/
theorem Hosts.refines (hosts : Hosts S' S plain tame enters view current)
    (hw : Watches S plain tame enters view current observe' observe) {s' : σ'}
    (hclean : ∀ cfg i c x held, Reachable S (view s') cfg →
      cfg.status i = .running c (.ret x) held → held = [])
    {labels' : List (Label ι)} {seen : List ω}
    (h : Observed S' observe' (.initial s') labels' seen cfg') :
    ∃ labels cfg, Observed S observe (.initial (view s')) labels seen cfg ∧
      Mirrors S plain tame enters view current cfg' cfg := by
  induction h with
  | nil => exact ⟨[], _, .nil, rfl, fun _ => rfl⟩
  | snoc hrun hstep ih =>
    obtain ⟨labels, cfg, hcalls, hmirrors⟩ := ih
    obtain ⟨labels', cfg₂, hmore, hmirrors'⟩ := hmirrors.step hosts hw
      (fun i c x held hi => hclean cfg i c x held ⟨labels, hcalls.run⟩ hi) hstep
    exact ⟨_, cfg₂, hcalls.append hmore, hmirrors'⟩

end Mirroring

end Refinement

end Tasks

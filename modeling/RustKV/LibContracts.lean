import RustKV.LibTasks

/-! Contracts for tasks. A contract says what the actions of a task do to what the task sees of
the shared state, what the other tasks may do to that meanwhile, and what has to hold when an
action is next. That a program keeps a contract is shown part by part; if the others do no more
than the contracts of all tasks say, then every task keeps its own in every run. -/

/-- `G` are the guards that a task may hold, `V` is what it sees. -/
structure Contract (A : Type) (R : A → Type) (G V : Type) where
  after : A → G → G
  duty : A → G → V → Prop
  does : (a : A) → G → V → R a → V → Prop
  rely : G → V → V → Prop
  rely_refl : ∀ g v, rely g v v
  rely_trans : ∀ {g v v' v''}, rely g v v' → rely g v' v'' → rely g v v''

namespace Contract
variable {A : Type} {R : A → Type} {G V α β : Type}

/-- Whatever the others do meanwhile, the program meets its duties, and `Q` holds from the moment
it returns on. -/
def Keeps (K : Contract A R G V) (Q : α → G → V → Prop) : Prog A R α → G → V → Prop
  | .ret x, g, v => ∀ v', K.rely g v v' → Q x g v'
  | .act a k, g, v => ∀ v', K.rely g v v' →
    K.duty a g v' ∧ ∀ r v'', K.does a g v' r v'' → Keeps K Q (k r) (K.after a g) v''

variable {K : Contract A R G V} {P Q : α → G → V → Prop} {g : G} {v v' : V}

theorem keeps_pure {x : α} (h : ∀ v', K.rely g v v' → Q x g v') : K.Keeps Q (pure x) g v := h

theorem keeps_perform_bind {a : A} {f : R a → Prog A R α}
    (h : ∀ v', K.rely g v v' →
      K.duty a g v' ∧ ∀ r v'', K.does a g v' r v'' → K.Keeps Q (f r) (K.after a g) v'') :
    K.Keeps Q (Prog.perform a >>= f) g v := h

/-- What the others do may come before the program. -/
theorem Keeps.stable {p : Prog A R α} (h : K.Keeps Q p g v) (hv : K.rely g v v') :
    K.Keeps Q p g v' := by
  cases p with
  | ret x => exact fun v'' hv' => h v'' (K.rely_trans hv hv')
  | act a k => exact fun v'' hv' => h v'' (K.rely_trans hv hv')

theorem Keeps.mono {p : Prog A R α} (h : K.Keeps P p g v)
    (hPQ : ∀ x g v, P x g v → Q x g v) : K.Keeps Q p g v := by
  induction p generalizing g v with
  | ret x => exact fun v' hv => hPQ _ _ _ (h v' hv)
  | act a k ih =>
    intro v' hv
    obtain ⟨hduty, hnext⟩ := h v' hv
    exact ⟨hduty, fun r v'' hdoes => ih r (hnext r v'' hdoes)⟩

theorem keeps_bind {p : Prog A R β} {f : β → Prog A R α} {P : β → G → V → Prop}
    (hp : K.Keeps P p g v) (hf : ∀ x g v, P x g v → K.Keeps Q (f x) g v) :
    K.Keeps Q (p >>= f) g v := by
  induction p generalizing g v with
  | ret x => exact hf x g v (hp v (K.rely_refl g v))
  | act a k ih =>
    intro v' hv
    obtain ⟨hduty, hnext⟩ := hp v' hv
    exact ⟨hduty, fun r v'' hdoes => ih r (hnext r v'' hdoes)⟩

/-- A loop whose body keeps an invariant on the elements done and the accumulator. -/
theorem keeps_forEach {xs : List β} {init : α} {body : α → β → Prog A R α}
    {I : List β → α → G → V → Prop}
    (hbody : ∀ done x rest acc g v, xs = done ++ x :: rest → I done acc g v →
      K.Keeps (I (done ++ [x])) (body acc x) g v)
    (hstable : ∀ done acc g v v', I done acc g v → K.rely g v v' → I done acc g v')
    (hinit : I [] init g v) : K.Keeps (I xs) (Prog.forEach xs init body) g v := by
  -- the induction is on what is left of the list
  suffices h : ∀ rest done acc g v, xs = done ++ rest → I done acc g v →
      K.Keeps (I xs) (Prog.forEach rest acc body) g v from h xs [] init g v rfl hinit
  intro rest
  induction rest with
  | nil =>
    intro done acc g v hxs hI
    rw [List.append_nil] at hxs
    exact fun v' hv => hxs ▸ hstable done acc g v v' hI hv
  | cons x rest ih =>
    intro done acc g v hxs hI
    rw [Prog.forEach_cons]
    refine keeps_bind (hbody done x rest acc g v hxs hI) fun acc' g' v' hI' => ?_
    exact ih (done ++ [x]) acc' g' v' (by simpa using hxs) hI'

/-- A program whose actions all keep an assertion. -/
theorem keeps_only {p : Prog A R α} {ok : A → Prop} {I : G → V → Prop} (hp : p.Only ok)
    (hstable : ∀ g v v', I g v → K.rely g v v' → I g v')
    (hact : ∀ a g v, ok a → I g v →
      K.duty a g v ∧ ∀ r v', K.does a g v r v' → I (K.after a g) v')
    (hI : I g v) : K.Keeps (fun _ => I) p g v := by
  induction p generalizing g v with
  | ret x => exact fun v' hv => hstable g v v' hI hv
  | act a k ih =>
    intro v' hv
    obtain ⟨hduty, hnext⟩ := hact a g v' hp.1 (hstable g v v' hI hv)
    exact ⟨hduty, fun r v'' hdoes => ih r (hp.2 r) (hnext r v'' hdoes)⟩

/-- A program that follows a protocol whose states, with what the task holds and sees, keep an
assertion. -/
theorem keeps_of_follows {S : Type} {π : Protocol A R S} {final : S → α → Prop} {s : S}
    {p : Prog A R α} {I : S → G → V → Prop} (hp : p.Follows π final s)
    (hstable : ∀ s g v v', I s g v → K.rely g v v' → I s g v')
    (hact : ∀ s a g v, π.allows s a → I s g v →
      K.duty a g v ∧ ∀ r v', K.does a g v r v' → I (π.next s a r) (K.after a g) v')
    (hI : I s g v) : K.Keeps (fun x g v => ∃ s, final s x ∧ I s g v) p g v := by
  induction p generalizing s g v with
  | ret x => exact fun v' hv => ⟨s, hp, hstable s g v v' hI hv⟩
  | act a k ih =>
    intro v' hv
    obtain ⟨hduty, hnext⟩ := hact s a g v' hp.1 (hstable s g v v' hI hv)
    exact ⟨hduty, fun r v'' hdoes => ih r (hp.2 r) (hnext r v'' hdoes)⟩

/-- Without duties there is nothing to show. -/
theorem keeps_of_free (hduty : ∀ a g v, K.duty a g v) (hQ : ∀ x g v, Q x g v) (p : Prog A R α) :
    K.Keeps Q p g v := by
  induction p generalizing g v with
  | ret x => exact fun _ _ => hQ _ _ _
  | act a k ih => exact fun v' _ => ⟨hduty a g v', fun r v'' _ => ih r⟩

section Lift
variable {B : Type} {S : B → Type} {K : Contract B S G V}

/-- The contract of a part of a program over fewer actions. -/
def comap (K : Contract B S G V) (emb : A → B) (ans : (a : A) → S (emb a) → R a) :
    Contract A R G V where
  after a g := K.after (emb a) g
  duty a g v := K.duty (emb a) g v
  does a g v r v' := ∃ r', K.does (emb a) g v r' v' ∧ ans a r' = r
  rely := K.rely
  rely_refl := K.rely_refl
  rely_trans := K.rely_trans

theorem keeps_lift {emb : A → B} {ans : (a : A) → S (emb a) → R a} {p : Prog A R α}
    (h : (K.comap emb ans).Keeps Q p g v) : K.Keeps Q (p.lift emb ans) g v := by
  induction p generalizing g v with
  | ret x => exact h
  | act a k ih =>
    intro v' hv
    obtain ⟨hduty, hnext⟩ := h v' hv
    exact ⟨hduty, fun r v'' hdoes => ih _ (hnext _ v'' ⟨r, hdoes, rfl⟩)⟩

end Lift

end Contract

namespace Tasks
variable {ι C A : Type} {R : A → Type} {L M σ β ω V : Type}

variable [DecidableEq ι] [DecidableEq L] [DecidableEq M] {S : System ι C A R L M σ β}

/-- Every task that runs keeps its contract. -/
def AllKeep (K : ι → C → Contract A R (List (L × M)) V)
    (Q : ι → C → β → List (L × M) → V → Prop) (view : ι → σ → List ω → V)
    (cfg : Config ι C A R L M σ β) (seen : List ω) : Prop :=
  ∀ i c p held, cfg.status i = .running c p held →
    (K i c).Keeps (Q i c) p held (view i cfg.shared seen)

/-- A step keeps all contracts if a call that it starts keeps its own, an action does what the
contract says of it, and the step is for the other tasks what their contracts allow. -/
theorem AllKeep.step {K : ι → C → Contract A R (List (L × M)) V}
    {Q : ι → C → β → List (L × M) → V → Prop} {view : ι → σ → List ω → V}
    {cfg cfg' : Config ι C A R L M σ β} {label : Label ι} {seen seen' : List ω}
    (hafter : ∀ i c a g, (K i c).after a g = (S.use a).after g) (ih : AllKeep K Q view cfg seen)
    (hstep : Step S cfg label cfg')
    (hstart : ∀ i c, label = .start i → S.starts i c → cfg'.shared = cfg.shared →
      (K i c).Keeps (Q i c) (S.prog c) [] (view i cfg'.shared seen'))
    (hown : ∀ i c a k held r, label = .act i → cfg.status i = .running c (.act a k) held →
      Admits S cfg (S.use a) → S.does i a cfg.shared (some r) cfg'.shared →
      (K i c).does a held (view i cfg.shared seen) r (view i cfg'.shared seen'))
    (hother : ∀ i c p held, cfg.status i = .running c p held → label.task ≠ some i →
      (K i c).rely held (view i cfg.shared seen) (view i cfg'.shared seen')) :
    AllKeep K Q view cfg' seen' := by
  intro i c p held hi
  by_cases hl : label.task = some i
  · cases hstep with
    | @start j c' hidle hc =>
      obtain rfl : j = i := Option.some.inj hl
      rw [cfg.set_status_self] at hi
      cases hi
      exact hstart j c rfl hc rfl
    | @act j c' a k held' r s' hi' hadm hdoes =>
      obtain rfl : j = i := Option.some.inj hl
      rw [cfg.set_status_self] at hi
      cases hi
      have hkeeps := (ih j c _ held' hi' _ ((K j c).rely_refl _ _)).2 r _
        (hown j c a k held' r rfl hi' hadm hdoes)
      rwa [hafter] at hkeeps
    | @panic j =>
      obtain rfl : j = i := Option.some.inj hl
      rw [cfg.set_status_self] at hi
      cases hi
    | @finish j c' b =>
      obtain rfl : j = i := Option.some.inj hl
      rw [cfg.set_status_self] at hi
      unfold System.finished at hi
      split_ifs at hi
    | environment => cases hl
  · rw [hstep.status_eq hl] at hi
    exact (ih i c p held hi).stable (hother i c p held hi hl)

/-- If every call keeps its contract when it starts, the actions do what the contracts say of
them, and the steps of the others what the contracts allow, then every task keeps its contract in
every run. -/
theorem Observed.allKeep {observe : Config ι C A R L M σ β → Label ι → List ω} {s : σ}
    {K : ι → C → Contract A R (List (L × M)) V} {Q : ι → C → β → List (L × M) → V → Prop}
    {view : ι → σ → List ω → V} (hafter : ∀ i c a g, (K i c).after a g = (S.use a).after g)
    (hstart : ∀ i c cfg seen labels, Observed S observe (.initial s) labels seen cfg →
      AllKeep K Q view cfg seen → S.starts i c →
      (K i c).Keeps (Q i c) (S.prog c) [] (view i cfg.shared (seen ++ observe cfg (.start i))))
    (hown : ∀ i c a k held r s' cfg seen labels, Observed S observe (.initial s) labels seen cfg →
      AllKeep K Q view cfg seen → cfg.status i = .running c (.act a k) held →
      Admits S cfg (S.use a) → S.does i a cfg.shared (some r) s' →
      (K i c).does a held (view i cfg.shared seen) r (view i s' (seen ++ observe cfg (.act i))))
    (hother : ∀ i c p held cfg cfg' label seen labels,
      Observed S observe (.initial s) labels seen cfg → AllKeep K Q view cfg seen →
      cfg.status i = .running c p held → Step S cfg label cfg' → label.task ≠ some i →
      (K i c).rely held (view i cfg.shared seen) (view i cfg'.shared (seen ++ observe cfg label)))
    {labels : List (Label ι)} {seen : List ω} (h : Observed S observe (.initial s) labels seen cfg) :
    AllKeep K Q view cfg seen := by
  induction h with
  | nil =>
    intro i c p held hi
    cases hi
  | @snoc labels seen cfg cfg' label hrun hstep ih =>
    refine ih.step hafter hstep ?_ ?_ ?_
    · rintro i c rfl hc hshared
      rw [hshared]
      exact hstart i c cfg seen labels hrun ih hc
    · rintro i c a k held r rfl hi hadm hdoes
      exact hown i c a k held r cfg'.shared cfg seen labels hrun ih hi hadm hdoes
    · intro i c p held hi hl
      exact hother i c p held cfg cfg' label seen labels hrun ih hi hstep hl

/-- What a contract says of a result holds of every task that has ended with it, if the steps of
the others keep it. -/
theorem Observed.ended {observe : Config ι C A R L M σ β → Label ι → List ω} {s : σ}
    {P : ι → β → σ → List ω → Prop}
    (hfinish : ∀ i c b held cfg seen labels, Observed S observe (.initial s) labels seen cfg →
      cfg.status i = .running c (.ret b) held → P i b cfg.shared (seen ++ observe cfg (.finish i)))
    (hother : ∀ i b cfg cfg' label seen labels, Observed S observe (.initial s) labels seen cfg →
      Step S cfg label cfg' → label.task ≠ some i → P i b cfg.shared seen →
      P i b cfg'.shared (seen ++ observe cfg label))
    {labels : List (Label ι)} {seen : List ω} {cfg : Config ι C A R L M σ β}
    (h : Observed S observe (.initial s) labels seen cfg) {i : ι} {b : β}
    (hi : cfg.status i = .done (some b)) : P i b cfg.shared seen := by
  induction h with
  | nil => cases hi
  | @snoc labels seen cfg cfg' label hrun hstep ih =>
    by_cases hl : label.task = some i
    · cases hstep with
      | start | act | panic =>
        obtain rfl := Option.some.inj hl
        rw [Config.set_status_self] at hi
        cases hi
      | @finish j c b' held hj =>
        obtain rfl := Option.some.inj hl
        rw [Config.set_status_self] at hi
        unfold System.finished at hi
        split_ifs at hi
        cases hi
        exact hfinish j c b held cfg seen labels hrun hj
      | environment => cases hl
    · rw [hstep.status_eq hl] at hi
      exact hother i b cfg cfg' label seen labels hrun hstep hl (ih hi)

end Tasks

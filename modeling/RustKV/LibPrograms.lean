import Mathlib.Data.Nat.Notation
import Mathlib.Tactic.Common

/-! Programs as trees of atomic actions. A program either returns or performs an
action and continues with its answer. What an action does is left open: a handler
turns a program into a function on states that may stop in a panic, and the same
program can be interleaved with others, one action at a time. -/

/-- Programs over the actions `A`, where `R a` is the type of the answer to `a`. -/
inductive Prog (A : Type) (R : A → Type) (α : Type) : Type where
  | ret (a : α)
  | act (a : A) (k : R a → Prog A R α)

namespace Prog
variable {A : Type} {R : A → Type} {α β γ σ : Type}

def bind (p : Prog A R α) (f : α → Prog A R β) : Prog A R β :=
  match p with
  | .ret a => f a
  | .act a k => .act a fun r => (k r).bind f

instance : Monad (Prog A R) where
  pure := .ret
  bind := bind

/-- One action. -/
def perform (a : A) : Prog A R (R a) := .act a .ret

@[simp] theorem ret_bind (a : α) (f : α → Prog A R β) : (Prog.ret a : Prog A R α) >>= f = f a := rfl

@[simp] theorem pure_bind' (a : α) (f : α → Prog A R β) :
    (pure a : Prog A R α) >>= f = f a := rfl

@[simp] theorem act_bind (a : A) (k : R a → Prog A R α) (f : α → Prog A R β) :
    Prog.act a k >>= f = .act a fun r => k r >>= f := rfl

theorem bind_assoc (p : Prog A R α) (f : α → Prog A R β) (g : β → Prog A R γ) :
    (p >>= f) >>= g = p >>= fun a => f a >>= g := by
  induction p with
  | ret a => rfl
  | act a k ih =>
    simp only [act_bind]
    exact congrArg (Prog.act a) (funext fun r => ih r)

/-- Returning what was returned. -/
theorem bind_pure_self (p : Prog A R α) : p >>= pure = p := by
  induction p with
  | ret a => rfl
  | act a k ih =>
    rw [act_bind]
    exact congrArg (Prog.act a) (funext fun r => ih r)

section Run

/-- Run a program alone. The handler answers an action or panics (`none`). -/
def run (h : (a : A) → σ → Option (R a) × σ) : Prog A R α → σ → Option α × σ
  | .ret a, s => (some a, s)
  | .act a k, s =>
    match h a s with
    | (none, s') => (none, s')
    | (some r, s') => run h (k r) s'

variable {h : (a : A) → σ → Option (R a) × σ}

@[simp] theorem run_ret (a : α) (s : σ) : run h (.ret a) s = (some a, s) := rfl
@[simp] theorem run_pure (a : α) (s : σ) : run h (pure a) s = (some a, s) := rfl

theorem run_act (a : A) (k : R a → Prog A R α) (s : σ) :
    run h (.act a k) s = match h a s with
      | (none, s') => (none, s')
      | (some r, s') => run h (k r) s' := by
  rw [run]

@[simp] theorem run_perform (a : A) (s : σ) : run h (perform a) s = h a s := by
  rw [perform, run_act]
  rcases h a s with ⟨_ | r, s'⟩ <;> rfl

theorem run_bind (p : Prog A R α) (f : α → Prog A R β) (s : σ) :
    run h (p >>= f) s = match run h p s with
      | (none, s') => (none, s')
      | (some a, s') => run h (f a) s' := by
  induction p generalizing s with
  | ret a => rfl
  | act a k ih =>
    rw [act_bind, run_act, run_act]
    rcases h a s with ⟨_ | r, s'⟩
    · rfl
    · exact ih r s'

theorem run_bind_some {p : Prog A R α} {f : α → Prog A R β} {s s' : σ} {a : α}
    (hp : run h p s = (some a, s')) : run h (p >>= f) s = run h (f a) s' := by
  rw [run_bind, hp]

theorem run_bind_none {p : Prog A R α} {f : α → Prog A R β} {s s' : σ}
    (hp : run h p s = (none, s')) : run h (p >>= f) s = (none, s') := by
  rw [run_bind, hp]

/-- Performing an action and going on. -/
theorem run_perform_bind (a : A) (f : R a → Prog A R β) (s : σ) :
    run h (perform a >>= f) s = match h a s with
      | (none, s') => (none, s')
      | (some r, s') => run h (f r) s' := by
  rw [run_bind, run_perform]
  rcases h a s with ⟨_ | r, s'⟩ <;> rfl

/-- Run alone from `s`, the program returns, with a value and a state that satisfy `Q`. -/
def Ensures (h : (a : A) → σ → Option (R a) × σ) (p : Prog A R α) (s : σ)
    (Q : α → σ → Prop) : Prop := ∃ a s', run h p s = (some a, s') ∧ Q a s'

theorem ensures_pure {a : α} {s : σ} {Q : α → σ → Prop} (hq : Q a s) :
    Ensures h (pure a) s Q := ⟨a, s, rfl, hq⟩

theorem ensures_bind {p : Prog A R α} {f : α → Prog A R β} {s : σ} {P : α → σ → Prop}
    {Q : β → σ → Prop} (hp : Ensures h p s P) (hf : ∀ a s', P a s' → Ensures h (f a) s' Q) :
    Ensures h (p >>= f) s Q := by
  obtain ⟨a, s', hrun, hP⟩ := hp
  obtain ⟨b, s'', hrun', hQ⟩ := hf a s' hP
  exact ⟨b, s'', (run_bind_some hrun).trans hrun', hQ⟩

theorem ensures_perform_bind {a : A} {f : R a → Prog A R β} {s s' : σ} {r : R a}
    {Q : β → σ → Prop} (ha : h a s = (some r, s')) (hf : Ensures h (f r) s' Q) :
    Ensures h (perform a >>= f) s Q := by
  obtain ⟨b, s'', hrun, hQ⟩ := hf
  exact ⟨b, s'', by rw [run_perform_bind, ha]; exact hrun, hQ⟩

theorem ensures_run_bind {p : Prog A R α} {f : α → Prog A R β} {s s' : σ} {a : α}
    {Q : β → σ → Prop} (hp : run h p s = (some a, s')) (hf : Ensures h (f a) s' Q) :
    Ensures h (p >>= f) s Q := by
  obtain ⟨b, s'', hrun, hQ⟩ := hf
  exact ⟨b, s'', (run_bind_some hp).trans hrun, hQ⟩

theorem Ensures.mono {p : Prog A R α} {s : σ} {P Q : α → σ → Prop} (hp : Ensures h p s P)
    (hPQ : ∀ a s', P a s' → Q a s') : Ensures h p s Q := by
  obtain ⟨a, s', hrun, hP⟩ := hp
  exact ⟨a, s', hrun, hPQ a s' hP⟩

/-- Run alone from `s`, the program performs no step that is `bad`. -/
def Avoids (h : (a : A) → σ → Option (R a) × σ) (bad : A → σ → Prop) : Prog A R α → σ → Prop
  | .ret _, _ => True
  | .act a k, s => ¬ bad a s ∧ ∀ r s', h a s = (some r, s') → Avoids h bad (k r) s'

variable {bad : A → σ → Prop}

theorem avoids_bind {p : Prog A R α} {f : α → Prog A R β} {s : σ} (hp : Avoids h bad p s)
    (hf : ∀ a s', run h p s = (some a, s') → Avoids h bad (f a) s') :
    Avoids h bad (p >>= f) s := by
  induction p generalizing s with
  | ret a => exact hf a s rfl
  | act a k ih =>
    refine ⟨hp.1, fun r s' hr => ih r (hp.2 r s' hr) fun b s'' hb => hf b s'' ?_⟩
    rw [run_act, hr]
    exact hb

theorem avoids_perform_bind {a : A} {f : R a → Prog A R β} {s : σ} (ha : ¬ bad a s)
    (hf : ∀ r s', h a s = (some r, s') → Avoids h bad (f r) s') :
    Avoids h bad (perform a >>= f) s := ⟨ha, hf⟩

end Run

section Stops

/-- The state after at most `k` actions of a program that runs alone. -/
def stoppedAfter (h : (a : A) → σ → Option (R a) × σ) : ℕ → Prog A R α → σ → σ
  | 0, _, s => s
  | _ + 1, .ret _, s => s
  | k + 1, .act a f, s =>
    match h a s with
    | (none, s') => s'
    | (some r, s') => stoppedAfter h k (f r) s'

/-- The number of actions of a program that runs alone. -/
def actions (h : (a : A) → σ → Option (R a) × σ) : Prog A R α → σ → ℕ
  | .ret _, _ => 0
  | .act a f, s =>
    match h a s with
    | (none, _) => 1
    | (some r, s') => actions h (f r) s' + 1

variable {h : (a : A) → σ → Option (R a) × σ} {I : ℕ → σ → Prop} {s s' s'' : σ} {j k k' l : ℕ}

theorem stoppedAfter_of_le {p : Prog A R α} (hj : actions h p s ≤ j) :
    stoppedAfter h j p s = (run h p s).2 := by
  induction p generalizing s j with
  | ret a => cases j <;> rfl
  | act a f ih =>
    rw [actions] at hj
    rcases ha : h a s with ⟨_ | r, s'⟩ <;> rw [ha] at hj <;> dsimp only at hj
    · obtain ⟨j, rfl⟩ := Nat.exists_eq_add_of_le' hj
      simp only [stoppedAfter, run_act, ha]
    · obtain ⟨j, rfl⟩ := Nat.exists_eq_add_of_le' (Nat.le_trans (Nat.le_add_left 1 _) hj)
      simp only [stoppedAfter, run_act, ha]
      exact ih r (by omega)

theorem stoppedAfter_bind_of_le {p : Prog A R α} {f : α → Prog A R β} (hj : j ≤ actions h p s) :
    stoppedAfter h j (p >>= f) s = stoppedAfter h j p s := by
  induction p generalizing s j with
  | ret a =>
    obtain rfl := Nat.le_zero.mp hj
    cases hf : (Prog.ret a : Prog A R α) >>= f <;> rfl
  | act a g ih =>
    cases j with
    | zero => rfl
    | succ j =>
      rw [actions] at hj
      rw [act_bind, stoppedAfter, stoppedAfter]
      rcases ha : h a s with ⟨_ | r, s'⟩
      · rfl
      · rw [ha] at hj
        exact ih r (Nat.le_of_succ_le_succ hj)

theorem stoppedAfter_bind_add {p : Prog A R α} {f : α → Prog A R β} {a : α}
    (hrun : run h p s = (some a, s')) (j : ℕ) :
    stoppedAfter h (actions h p s + j) (p >>= f) s = stoppedAfter h j (f a) s' := by
  induction p generalizing s with
  | ret b =>
    cases hrun
    rw [actions, Nat.zero_add]
    rfl
  | act b g ih =>
    rw [run_act] at hrun
    rw [actions]
    rcases hb : h b s with ⟨_ | r, t⟩ <;> rw [hb] at hrun
    · cases hrun
    · dsimp only
      rw [Nat.succ_add, act_bind, stoppedAfter, hb]
      exact ih r hrun

theorem actions_bind {p : Prog A R α} {f : α → Prog A R β} {a : α}
    (hrun : run h p s = (some a, s')) :
    actions h (p >>= f) s = actions h p s + actions h (f a) s' := by
  induction p generalizing s with
  | ret b =>
    cases hrun
    rw [actions, Nat.zero_add]
    rfl
  | act b g ih =>
    rw [run_act] at hrun
    rw [act_bind, actions, actions]
    rcases hb : h b s with ⟨_ | r, t⟩ <;> rw [hb] at hrun
    · cases hrun
    · dsimp only
      rw [ih r hrun]
      omega

/-- Run alone from `s`, the program returns `a` in the state `s'` after `k` actions, and stopped
after `j` actions its state satisfies `I j`. -/
structure Passes (h : (a : A) → σ → Option (R a) × σ) (I : ℕ → σ → Prop) (p : Prog A R α) (s : σ)
    (k : ℕ) (a : α) (s' : σ) : Prop where
  run_eq : run h p s = (some a, s')
  actions_eq : actions h p s = k
  stopped : ∀ j ≤ k, I j (stoppedAfter h j p s)

theorem passes_pure {a : α} (hs : I 0 s) : Passes h I (pure a) s 0 a s := by
  refine ⟨rfl, rfl, fun j hj => ?_⟩
  obtain rfl := Nat.le_zero.mp hj
  exact hs

theorem passes_perform {a : A} {r : R a} (ha : h a s = (some r, s')) (hs : I 0 s) (hs' : I 1 s') :
    Passes h I (perform a) s 1 r s' := by
  refine ⟨(run_perform a s).trans ha, by simp only [perform, actions, ha], fun j hj => ?_⟩
  rcases j with _ | _ | j
  · exact hs
  · rw [perform, stoppedAfter, ha]
    exact hs'
  · omega

theorem Passes.bind {p : Prog A R α} {f : α → Prog A R β} {a : α} {b : β}
    (hp : Passes h I p s k a s') (hf : Passes h (fun j => I (k + j)) (f a) s' k' b s'')
    (hl : k + k' = l) : Passes h I (p >>= f) s l b s'' := by
  subst hl
  refine ⟨(run_bind_some hp.run_eq).trans hf.run_eq, ?_, fun j hj => ?_⟩
  · rw [actions_bind hp.run_eq, hp.actions_eq, hf.actions_eq]
  · by_cases hle : j ≤ k
    · rw [stoppedAfter_bind_of_le (hp.actions_eq ▸ hle)]
      exact hp.stopped j hle
    · obtain ⟨i, rfl⟩ := Nat.exists_eq_add_of_le (Nat.le_of_not_le hle)
      have hadd := stoppedAfter_bind_add (f := f) hp.run_eq i
      rw [hp.actions_eq] at hadd
      rw [hadd]
      exact hf.stopped i (Nat.le_of_add_le_add_left hj)

theorem Passes.mono {J : ℕ → σ → Prop} {p : Prog A R α} {a : α} (hp : Passes h I p s k a s')
    (hIJ : ∀ j ≤ k, ∀ t, I j t → J j t) : Passes h J p s k a s' :=
  ⟨hp.run_eq, hp.actions_eq, fun j hj => hIJ j hj _ (hp.stopped j hj)⟩

/-- Where the program has ended, it stays. -/
theorem Passes.stopped_of_le {p : Prog A R α} {a : α} (hp : Passes h I p s k a s') (hj : k ≤ j) :
    stoppedAfter h j p s = s' := by
  rw [stoppedAfter_of_le (hp.actions_eq ▸ hj), hp.run_eq]

end Stops

section Loops

/-- Run a body for each element of a list, threading an accumulator. -/
def forEach (xs : List β) (init : α) (body : α → β → Prog A R α) : Prog A R α :=
  match xs with
  | [] => pure init
  | x :: xs => do
    let acc ← body init x
    forEach xs acc body

@[simp] theorem forEach_nil (init : α) (body : α → β → Prog A R α) :
    forEach [] init body = pure init := rfl

theorem forEach_cons (x : β) (xs : List β) (init : α) (body : α → β → Prog A R α) :
    forEach (x :: xs) init body = body init x >>= fun acc => forEach xs acc body := rfl

end Loops

section Lift
variable {B : Type} {S : B → Type}

/-- Read a program over `A` as one over actions `B` that include those of `A`. -/
def lift (emb : A → B) (ans : (a : A) → S (emb a) → R a) : Prog A R α → Prog B S α
  | .ret a => .ret a
  | .act a k => .act (emb a) fun r => lift emb ans (k (ans a r))

variable {emb : A → B} {ans : (a : A) → S (emb a) → R a}

theorem lift_bind (p : Prog A R α) (f : α → Prog A R β) :
    lift emb ans (p >>= f) = lift emb ans p >>= fun a => lift emb ans (f a) := by
  induction p with
  | ret a => rfl
  | act a k ih =>
    simp only [act_bind, lift]
    exact congrArg (Prog.act (emb a)) (funext fun r => ih _)

theorem lift_lift {D : Type} {T : D → Type} {emb' : B → D} {ans' : (b : B) → T (emb' b) → S b}
    (p : Prog A R α) : lift emb' ans' (lift emb ans p) =
      lift (fun a => emb' (emb a)) (fun a r => ans a (ans' (emb a) r)) p := by
  induction p with
  | ret a => rfl
  | act a k ih =>
    simp only [lift]
    exact congrArg (Prog.act (emb' (emb a))) (funext fun r => ih _)

/-- A lifted program runs as the original one on the part of the state it acts on. -/
theorem run_lift {ρ : Type} {h : (a : A) → σ → Option (R a) × σ}
    {h' : (b : B) → ρ → Option (S b) × ρ} (get : ρ → σ) (set : ρ → σ → ρ)
    (hgs : ∀ r s, get (set r s) = s) (hss : ∀ r s s', set (set r s) s' = set r s')
    (hsg : ∀ r, set r (get r) = r)
    (hact : ∀ a r, ((h' (emb a) r).1.map (ans a), (h' (emb a) r).2) =
      ((h a (get r)).1, set r (h a (get r)).2)) (p : Prog A R α) (r : ρ) :
    run h' (lift emb ans p) r = ((run h p (get r)).1, set r (run h p (get r)).2) := by
  induction p generalizing r with
  | ret a => simp [lift, hsg]
  | act a k ih =>
    have ha := hact a r
    rw [lift, run_act, run_act]
    rcases hr : h' (emb a) r with ⟨_ | b, r'⟩ <;> rcases hs : h a (get r) with ⟨_ | c, s'⟩ <;>
      rw [hr, hs] at ha <;> simp only [Option.map_none, Option.map_some, Prod.mk.injEq,
        reduceCtorEq, Option.some.injEq, false_and, true_and] at ha
    · exact congrArg _ ha
    · obtain ⟨rfl, rfl⟩ := ha
      simp only [ih, hgs, hss]

/-- A lifted program avoids what the original one avoids. -/
theorem avoids_lift {ρ : Type} {h : (a : A) → σ → Option (R a) × σ}
    {h' : (b : B) → ρ → Option (S b) × ρ} {bad : A → σ → Prop} {bad' : B → ρ → Prop} (get : ρ → σ)
    (hbad : ∀ a r, bad' (emb a) r ↔ bad a (get r))
    (hact : ∀ a r, ((h' (emb a) r).1.map (ans a), get (h' (emb a) r).2) = h a (get r))
    (p : Prog A R α) (r : ρ) : Avoids h' bad' (lift emb ans p) r ↔ Avoids h bad p (get r) := by
  induction p generalizing r with
  | ret a => exact Iff.rfl
  | act a k ih =>
    have ha := hact a r
    rw [lift, Avoids, Avoids, hbad, ← ha]
    refine and_congr_right fun _ => ?_
    rcases hr : h' (emb a) r with ⟨_ | b, r'⟩
    · simp
    · simp only [Prod.mk.injEq, Option.some.injEq, Option.map_some, and_imp, forall_apply_eq_imp_iff,
        forall_eq']
      exact ih _ _

end Lift

end Prog

import RustKV.LibPrograms

/-! Protocols for programs. A protocol says, for each of its states, which actions may come
next and where their answers lead. That a program follows a protocol is a fact about its text:
it holds whatever the actions do and whatever they answer, also beside other programs. -/

/-- `P` are the states of the protocol. -/
structure Protocol (A : Type) (R : A → Type) (P : Type) where
  allows : P → A → Prop
  next : P → (a : A) → R a → P

/-- Two protocols side by side. -/
def Protocol.prod {A : Type} {R : A → Type} {P Q : Type} (π : Protocol A R P) (ρ : Protocol A R Q) :
    Protocol A R (P × Q) where
  allows s a := π.allows s.1 a ∧ ρ.allows s.2 a
  next s a r := (π.next s.1 a r, ρ.next s.2 a r)

namespace Prog
variable {A : Type} {R : A → Type} {α β P : Type}

/-- From the state `s` on the program does only what the protocol allows, and it returns
values that `final` permits in the state reached. -/
def Follows (π : Protocol A R P) (final : P → α → Prop) (s : P) : Prog A R α → Prop
  | .ret x => final s x
  | .act a k => π.allows s a ∧ ∀ r, Follows π final (π.next s a r) (k r)

variable {π : Protocol A R P} {final : P → α → Prop} {s : P}

theorem follows_pure {x : α} (h : final s x) : Follows π final s (pure x) := h

theorem follows_act {a : A} {k : R a → Prog A R α} (ha : π.allows s a)
    (hk : ∀ r, Follows π final (π.next s a r) (k r)) : Follows π final s (.act a k) := ⟨ha, hk⟩

theorem follows_perform_bind {a : A} {f : R a → Prog A R α} (ha : π.allows s a)
    (hf : ∀ r, Follows π final (π.next s a r) (f r)) : Follows π final s (perform a >>= f) :=
  ⟨ha, hf⟩

theorem Follows.mono {final' : P → α → Prop} {p : Prog A R α} (hp : Follows π final s p)
    (h : ∀ s x, final s x → final' s x) : Follows π final' s p := by
  induction p generalizing s with
  | ret x => exact h s x hp
  | act a k ih => exact ⟨hp.1, fun r => ih r (hp.2 r)⟩

theorem follows_bind {mid : P → β → Prop} {p : Prog A R β} {f : β → Prog A R α}
    (hp : Follows π mid s p) (hf : ∀ s' x, mid s' x → Follows π final s' (f x)) :
    Follows π final s (p >>= f) := by
  induction p generalizing s with
  | ret x => exact hf s x hp
  | act a k ih => exact ⟨hp.1, fun r => ih r (hp.2 r)⟩

/-- A loop whose body keeps a relation between the protocol and the accumulator. -/
theorem follows_forEach {xs : List β} {init : α} {body : α → β → Prog A R α}
    (hbody : ∀ s acc x, x ∈ xs → final s acc → Follows π final s (body acc x))
    (hinit : final s init) : Follows π final s (forEach xs init body) := by
  induction xs generalizing s init with
  | nil => exact hinit
  | cons x xs ih =>
    rw [forEach_cons]
    refine follows_bind (hbody s init x List.mem_cons_self hinit) fun s' acc hacc => ?_
    exact ih (fun s acc y hy => hbody s acc y (List.mem_cons_of_mem x hy)) hacc

/-- A program that follows two protocols follows both side by side. -/
theorem follows_prod {Q : Type} {ρ : Protocol A R Q} {final' : Q → α → Prop} {t : Q}
    {p : Prog A R α} (hp : Follows π final s p) (hq : Follows ρ final' t p) :
    Follows (π.prod ρ) (fun st x => final st.1 x ∧ final' st.2 x) (s, t) p := by
  induction p generalizing s t with
  | ret x => exact ⟨hp, hq⟩
  | act a k ih => exact ⟨⟨hp.1, hq.1⟩, fun r => ih r (hp.2 r) (hq.2 r)⟩

section Yields

/-- Whatever its actions answer, the program returns values with `P`. -/
def Yields (P : α → Prop) : Prog A R α → Prop
  | .ret x => P x
  | .act _ k => ∀ r, Yields P (k r)

variable {Q : α → Prop}

theorem yields_pure {x : α} (h : Q x) : Yields Q (pure x : Prog A R α) := h

theorem yields_true (p : Prog A R α) : Yields (fun _ => True) p := by
  induction p with
  | ret x => trivial
  | act a k ih => exact ih

theorem yields_bind {p : Prog A R β} {f : β → Prog A R α} (hf : ∀ x, Yields Q (f x)) :
    Yields Q (p >>= f) := by
  induction p with
  | ret x => exact hf x
  | act a k ih => exact fun r => ih r

theorem yields_lift {B : Type} {S : B → Type} {emb : A → B} {ans : (a : A) → S (emb a) → R a}
    {p : Prog A R α} (hp : Yields Q p) : Yields Q (p.lift emb ans) := by
  induction p with
  | ret x => exact hp
  | act a k ih => exact fun r => ih _ (hp _)

end Yields

section Lift
variable {B : Type} {S : B → Type} {Q : Type} {emb : A → B} {ans : (a : A) → S (emb a) → R a}

/-- A lifted program follows a protocol in which its own one is embedded. -/
theorem follows_lift {ρ : Protocol B S Q} (embed : P → Q) {final' : Q → α → Prop}
    (hallows : ∀ s a, π.allows s a → ρ.allows (embed s) (emb a))
    (hnext : ∀ s a r, π.allows s a → ρ.next (embed s) (emb a) r = embed (π.next s a (ans a r)))
    (hfinal : ∀ s x, final s x → final' (embed s) x) {p : Prog A R α}
    (hp : Follows π final s p) : Follows ρ final' (embed s) (lift emb ans p) := by
  induction p generalizing s with
  | ret x => exact hfinal s x hp
  | act a k ih =>
    refine ⟨hallows s a hp.1, fun r => ?_⟩
    rw [hnext s a r hp.1]
    exact ih _ (hp.2 _)

end Lift

section Only

/-- All actions of the program satisfy `ok`, whatever they answer. -/
def Only (ok : A → Prop) : Prog A R α → Prop
  | .ret _ => True
  | .act a k => ok a ∧ ∀ r, Only ok (k r)

variable {ok : A → Prop}

theorem only_pure (x : α) : Only ok (pure x : Prog A R α) := trivial

theorem only_perform {a : A} (ha : ok a) : Only ok (perform a : Prog A R (R a)) :=
  ⟨ha, fun _ => trivial⟩

theorem Only.mono {ok' : A → Prop} {p : Prog A R α} (hp : Only ok p) (h : ∀ a, ok a → ok' a) :
    Only ok' p := by
  induction p with
  | ret x => trivial
  | act a k ih => exact ⟨h a hp.1, fun r => ih r (hp.2 r)⟩

theorem only_bind {p : Prog A R β} {f : β → Prog A R α} (hp : Only ok p)
    (hf : ∀ x, Only ok (f x)) : Only ok (p >>= f) := by
  induction p with
  | ret x => exact hf x
  | act a k ih => exact ⟨hp.1, fun r => ih r (hp.2 r)⟩

theorem only_forEach {xs : List β} {init : α} {body : α → β → Prog A R α}
    (hbody : ∀ acc x, Only ok (body acc x)) : Only ok (forEach xs init body) := by
  induction xs generalizing init with
  | nil => exact only_pure init
  | cons x xs ih =>
    rw [forEach_cons]
    exact only_bind (hbody init x) fun acc => ih

/-- A program all of whose actions are allowed and leave the protocol where it is. -/
theorem Only.follows {p : Prog A R α} (hp : Only ok p) (hallows : ∀ a, ok a → π.allows s a)
    (hnext : ∀ a r, ok a → π.next s a r = s) (hfinal : ∀ x, final s x) : Follows π final s p := by
  induction p with
  | ret x => exact hfinal x
  | act a k ih =>
    refine ⟨hallows a hp.1, fun r => ?_⟩
    rw [hnext a r hp.1]
    exact ih r (hp.2 r)

/-- The same for a program of which is known what it returns. -/
theorem Only.follows_yields {p : Prog A R α} {Q : α → Prop} (hp : Only ok p) (hyields : Yields Q p)
    (hallows : ∀ a, ok a → π.allows s a) (hnext : ∀ a r, ok a → π.next s a r = s) :
    Follows π (fun s' x => s' = s ∧ Q x) s p := by
  induction p with
  | ret x => exact ⟨rfl, hyields⟩
  | act a k ih =>
    refine ⟨hallows a hp.1, fun r => ?_⟩
    rw [hnext a r hp.1]
    exact ih r (hp.2 r) (hyields r)

/-- A program all of whose actions are always allowed. -/
theorem Only.follows_free {p : Prog A R α} (hp : Only ok p) (hallows : ∀ s a, ok a → π.allows s a)
    (s : P) : Follows π (fun _ _ => True) s p := by
  induction p generalizing s with
  | ret x => trivial
  | act a k ih => exact ⟨hallows s a hp.1, fun r => ih r (hp.2 r) _⟩

theorem only_lift {B : Type} {S : B → Type} {emb : A → B} {ans : (a : A) → S (emb a) → R a}
    {ok' : B → Prop} {p : Prog A R α} (hp : Only ok p) (h : ∀ a, ok a → ok' (emb a)) :
    Only ok' (p.lift emb ans) := by
  induction p with
  | ret x => trivial
  | act a k ih => exact ⟨h a hp.1, fun r => ih _ (hp.2 _)⟩

end Only

end Prog

import Mathlib.Data.List.Infix
import Mathlib.Data.Nat.Notation
import Mathlib.Tactic.Common

/-! Readers over a growing input. A reader looks at an input from a position,
returns a value or an error, moves the position and leaves a trace of events.
Three notions say what a reader does: `Reads` (it turns a word into a value,
whatever surrounds the word), `Consumes` (what it accepts is a word of a
language) and `Stable` (a verdict other than "wait for more input" does not
change when the input grows). `EmitsAt` bounds what a run adds to the trace and
`Keeps` says that it erases nothing. All are closed under sequencing. -/

structure Cursor (σ η : Type) where
  input : List σ
  pos : ℕ
  events : List η

/-- A computation over a cursor that may stop with an error. -/
def Reader (σ η ε α : Type) := Cursor σ η → Except ε α × Cursor σ η

namespace Reader
variable {σ η ε α β : Type}

instance : Monad (Reader σ η ε) where
  pure a := fun c => (.ok a, c)
  bind m f := fun c =>
    match m c with
    | (.ok a, d) => f a d
    | (.error e, d) => (.error e, d)

def fail (e : ε) : Reader σ η ε α := fun c => (.error e, c)
def cursor : Reader σ η ε (Cursor σ η) := fun c => (.ok c, c)
def emit (v : η) : Reader σ η ε Unit := fun c => (.ok (), { c with events := v :: c.events })
def seek (pos : ℕ) : Reader σ η ε Unit := fun c => (.ok (), { c with pos := pos })
def lift (r : Except ε α) : Reader σ η ε α := fun c => (r, c)

@[simp] theorem pure_apply (a : α) (c : Cursor σ η) :
    (pure a : Reader σ η ε α) c = (.ok a, c) := rfl
@[simp] theorem fail_apply (e : ε) (c : Cursor σ η) :
    (fail e : Reader σ η ε α) c = (.error e, c) := rfl
@[simp] theorem cursor_apply (c : Cursor σ η) :
    (cursor : Reader σ η ε _) c = (.ok c, c) := rfl
@[simp] theorem emit_apply (v : η) (c : Cursor σ η) :
    (emit v : Reader σ η ε Unit) c = (.ok (), { c with events := v :: c.events }) := rfl
@[simp] theorem seek_apply (n : ℕ) (c : Cursor σ η) :
    (seek n : Reader σ η ε Unit) c = (.ok (), { c with pos := n }) := rfl
@[simp] theorem lift_apply (r : Except ε α) (c : Cursor σ η) :
    (lift r : Reader σ η ε α) c = (r, c) := rfl

theorem bind_apply (m : Reader σ η ε α) (f : α → Reader σ η ε β) (c : Cursor σ η) :
    (m >>= f) c = match m c with
      | (.ok a, d) => f a d
      | (.error e, d) => (.error e, d) := rfl

theorem bind_ok {m : Reader σ η ε α} {f : α → Reader σ η ε β} {c d : Cursor σ η} {a : α}
    (h : m c = (.ok a, d)) : (m >>= f) c = f a d := by
  rw [bind_apply, h]

theorem bind_error {m : Reader σ η ε α} {f : α → Reader σ η ε β} {c d : Cursor σ η} {e : ε}
    (h : m c = (.error e, d)) : (m >>= f) c = (.error e, d) := by
  rw [bind_apply, h]

theorem bind_eq_ok {m : Reader σ η ε α} {f : α → Reader σ η ε β} {c d : Cursor σ η} {b : β}
    (h : (m >>= f) c = (.ok b, d)) : ∃ a e, m c = (.ok a, e) ∧ f a e = (.ok b, d) := by
  rw [bind_apply] at h
  rcases hm : m c with ⟨_ | a, e⟩
  · simp [hm] at h
  · exact ⟨a, e, rfl, by simpa [hm] using h⟩

theorem bind_eq_error {m : Reader σ η ε α} {f : α → Reader σ η ε β} {c d : Cursor σ η} {e : ε}
    (h : (m >>= f) c = (.error e, d)) :
    m c = (.error e, d) ∨ ∃ a k, m c = (.ok a, k) ∧ f a k = (.error e, d) := by
  rw [bind_apply] at h
  rcases hm : m c with ⟨e' | a, k⟩
  · exact Or.inl (by simpa [hm] using h)
  · exact Or.inr ⟨a, k, rfl, by simpa [hm] using h⟩

/-- Run a reader a fixed number of times and collect the results. -/
def replicate (m : Reader σ η ε α) : ℕ → Reader σ η ε (List α)
  | 0 => pure []
  | n+1 => do
    let a ← m
    let as ← replicate m n
    pure (a :: as)

/-- Run from the start of an input. -/
def run (m : Reader σ η ε α) (input : List σ) : Except ε α × Cursor σ η := m ⟨input, 0, []⟩

section Words

/-- `m` turns the word `w` into `a`, wherever `w` stands in an input of at
most `limit` symbols. -/
def Reads (limit : ℕ) (m : Reader σ η ε α) (w : List σ) (a : α) : Prop :=
  ∀ (pre post : List σ) (ev : List η), (pre ++ (w ++ post)).length ≤ limit →
    ∃ ev', m ⟨pre ++ (w ++ post), pre.length, ev⟩ =
      (.ok a, ⟨pre ++ (w ++ post), pre.length + w.length, ev'⟩)

/-- Whatever `m` accepts is a word of the language `L`, and `m` stops right
after it. -/
def Consumes (m : Reader σ η ε α) (L : α → List σ → Prop) : Prop :=
  ∀ (c d : Cursor σ η) (a : α), c.pos ≤ c.input.length → m c = (.ok a, d) →
    d.input = c.input ∧ ∃ w, L a w ∧ c.input.drop c.pos = w ++ c.input.drop d.pos ∧
      d.pos = c.pos + w.length

variable {limit : ℕ} {m : Reader σ η ε α} {f : α → Reader σ η ε β}

theorem reads_pure (a : α) : Reads limit (pure a : Reader σ η ε α) [] a :=
  fun _ _ ev _ => ⟨ev, rfl⟩

theorem reads_emit (v : η) : Reads limit (emit v : Reader σ η ε Unit) [] () :=
  fun _ _ ev _ => ⟨v :: ev, rfl⟩

theorem reads_lift {r : Except ε α} {a : α} (h : r = .ok a) :
    Reads limit (lift r : Reader σ η ε α) [] a := by
  subst h
  exact fun _ _ ev _ => ⟨ev, rfl⟩

theorem reads_bind {w v : List σ} {a : α} {b : β} (hm : Reads limit m w a)
    (hf : Reads limit (f a) v b) : Reads limit (m >>= f) (w ++ v) b := by
  intro pre post ev hl
  obtain ⟨ev₁, h₁⟩ := hm pre (v ++ post) ev (by simpa using hl)
  obtain ⟨ev₂, h₂⟩ := hf (pre ++ w) post ev₁ (by simpa using hl)
  refine ⟨ev₂, ?_⟩
  simp only [List.append_assoc, List.length_append] at h₁ h₂ ⊢
  rw [bind_ok h₁, h₂, Nat.add_assoc]

theorem reads_bind_pure {w : List σ} {a : α} (g : α → β) (hm : Reads limit m w a) :
    Reads limit (m >>= fun a => pure (g a)) w (g a) := by
  have h := reads_bind (f := fun a => pure (g a)) hm (reads_pure (g a))
  rwa [List.append_nil] at h

theorem reads_replicate {ws : List (List σ)} {as : List α}
    (h : List.Forall₂ (fun a w => Reads limit m w a) as ws) :
    Reads limit (replicate m as.length) ws.flatten as := by
  induction h with
  | nil => exact reads_pure []
  | @cons a w as ws ha _ ih =>
    rw [List.flatten_cons]
    exact reads_bind ha (reads_bind_pure (fun as => a :: as) ih)

/-- A word read at the very start of an input. -/
theorem Reads.run {w post : List σ} {a : α} (h : Reads limit m w a)
    (hl : (w ++ post).length ≤ limit) :
    ∃ ev, m.run (w ++ post) = (.ok a, ⟨w ++ post, w.length, ev⟩) := by
  simpa [Reader.run] using h [] post [] (by simpa using hl)

theorem consumes_pure (a : α) :
    Consumes (pure a : Reader σ η ε α) (fun b w => b = a ∧ w = []) := by
  rintro c d b _ h
  cases h
  exact ⟨rfl, [], ⟨rfl, rfl⟩, rfl, rfl⟩

theorem consumes_fail (e : ε) (L : α → List σ → Prop) :
    Consumes (fail e : Reader σ η ε α) L := by
  intro c d b _ h
  simp at h

theorem consumes_lift (r : Except ε α) :
    Consumes (lift r : Reader σ η ε α) (fun b w => r = .ok b ∧ w = []) := by
  rintro c d b _ h
  simp only [lift_apply, Prod.mk.injEq] at h
  obtain ⟨rfl, rfl⟩ := h
  exact ⟨rfl, [], ⟨rfl, rfl⟩, rfl, rfl⟩

theorem consumes_emit (v : η) :
    Consumes (emit v : Reader σ η ε Unit) (fun _ w => w = []) := by
  rintro c d b _ h
  cases h
  exact ⟨rfl, [], rfl, rfl, rfl⟩

theorem Consumes.mono {L M : α → List σ → Prop} (h : Consumes m L)
    (hLM : ∀ a w, L a w → M a w) : Consumes m M := by
  intro c d a hc hm
  obtain ⟨hi, w, hw, hs⟩ := h c d a hc hm
  exact ⟨hi, w, hLM a w hw, hs⟩

theorem consumes_bind {L : α → List σ → Prop} {M : α → β → List σ → Prop}
    (hm : Consumes m L) (hf : ∀ a, Consumes (f a) (M a)) :
    Consumes (m >>= f) (fun b w => ∃ a u v, w = u ++ v ∧ L a u ∧ M a b v) := by
  intro c d b hc h
  obtain ⟨a, e, h₁, h₂⟩ := bind_eq_ok h
  obtain ⟨hi₁, u, hu, hd₁, hp₁⟩ := hm c e a hc h₁
  have hlen : e.pos ≤ e.input.length := by
    have hl := congrArg List.length hd₁
    simp only [List.length_drop, List.length_append] at hl
    rw [hi₁]
    omega
  obtain ⟨hi₂, v, hv, hd₂, hp₂⟩ := hf a e d b hlen h₂
  refine ⟨hi₂.trans hi₁, u ++ v, ⟨a, u, v, rfl, hu, hv⟩, ?_, ?_⟩
  · rw [hd₁, List.append_assoc, ← hi₁, hd₂]
  · rw [hp₂, hp₁, List.length_append, Nat.add_assoc]

theorem consumes_replicate {L : α → List σ → Prop} (hm : Consumes m L) (n : ℕ) :
    Consumes (replicate m n) (fun as w => as.length = n ∧
      ∃ ws, w = ws.flatten ∧ List.Forall₂ L as ws) := by
  induction n with
  | zero =>
    apply (consumes_pure []).mono
    rintro as w ⟨rfl, rfl⟩
    exact ⟨rfl, [], rfl, .nil⟩
  | succ n ih =>
    apply (consumes_bind hm fun a => consumes_bind ih fun as => consumes_pure (a :: as)).mono
    rintro as w ⟨a, u, v, rfl, hu, bs, v', v'', rfl, ⟨hn, ws, rfl, hws⟩, rfl, rfl⟩
    exact ⟨by simp [hn], u :: ws, by simp, .cons hu hws⟩

/-- The position never passes the end of the input. -/
theorem Consumes.pos_le {L : α → List σ → Prop} (h : Consumes m L) {c d : Cursor σ η} {a : α}
    (hc : c.pos ≤ c.input.length) (hm : m c = (.ok a, d)) :
    d.input = c.input ∧ c.pos ≤ d.pos ∧ d.pos ≤ c.input.length := by
  obtain ⟨hi, w, _, hd, hp⟩ := h c d a hc hm
  have hl := congrArg List.length hd
  simp only [List.length_drop, List.length_append] at hl
  exact ⟨hi, by omega, by omega⟩

end Words

section Stability

/-- `d` looks at the same position of an input that extends the one of `c`. -/
def Extends (c d : Cursor σ η) : Prop := d.pos = c.pos ∧ c.input <+: d.input

/-- Only the verdict `wait` may change when the input grows. -/
def Stable (wait : ε) (m : Reader σ η ε α) : Prop :=
  ∀ c d : Cursor σ η, c.pos ≤ c.input.length → Extends c d →
    (∀ a c', m c = (.ok a, c') → ∃ d', m d = (.ok a, d') ∧ Extends c' d') ∧
    (∀ e c', m c = (.error e, c') → e ≠ wait → ∃ d', m d = (.error e, d'))

variable {wait : ε} {m : Reader σ η ε α} {f : α → Reader σ η ε β}

theorem stable_pure (a : α) : Stable wait (pure a : Reader σ η ε α) := by
  intro c d _ h
  refine ⟨?_, by simp⟩
  rintro b c' hc
  cases hc
  exact ⟨d, rfl, h⟩

theorem stable_fail (e : ε) : Stable wait (fail e : Reader σ η ε α) := by
  intro c d _ _
  refine ⟨by simp, ?_⟩
  rintro e' c' hc _
  cases hc
  exact ⟨d, rfl⟩

theorem stable_lift (r : Except ε α) : Stable wait (lift r : Reader σ η ε α) := by
  cases r with
  | ok a => exact stable_pure a
  | error e => exact stable_fail e

theorem stable_emit (v : η) : Stable wait (emit v : Reader σ η ε Unit) := by
  intro c d _ h
  refine ⟨?_, by simp⟩
  rintro b c' hc
  cases hc
  exact ⟨_, rfl, h⟩

theorem stable_bind {L : α → List σ → Prop} (hL : Consumes m L) (hm : Stable wait m)
    (hf : ∀ a, Stable wait (f a)) : Stable wait (m >>= f) := by
  intro c d hc h
  refine ⟨?_, ?_⟩
  · intro b c' hb
    obtain ⟨a, c₁, h₁, h₂⟩ := bind_eq_ok hb
    obtain ⟨d₁, hd₁, he₁⟩ := (hm c d hc h).1 a c₁ h₁
    obtain ⟨hi, _, hp⟩ := hL.pos_le hc h₁
    obtain ⟨d', hd', he'⟩ := (hf a c₁ d₁ (hi ▸ hp) he₁).1 b c' h₂
    exact ⟨d', by rw [bind_ok hd₁, hd'], he'⟩
  · intro e c' hb hw
    rcases bind_eq_error hb with h₁ | ⟨a, c₁, h₁, h₂⟩
    · obtain ⟨d', hd'⟩ := (hm c d hc h).2 e c' h₁ hw
      exact ⟨d', bind_error hd'⟩
    · obtain ⟨d₁, hd₁, he₁⟩ := (hm c d hc h).1 a c₁ h₁
      obtain ⟨hi, _, hp⟩ := hL.pos_le hc h₁
      obtain ⟨d', hd'⟩ := (hf a c₁ d₁ (hi ▸ hp) he₁).2 e c' h₂ hw
      exact ⟨d', by rw [bind_ok hd₁, hd']⟩

theorem stable_replicate {L : α → List σ → Prop} (hL : Consumes m L) (hm : Stable wait m)
    (n : ℕ) : Stable wait (replicate m n) := by
  induction n with
  | zero => exact stable_pure []
  | succ n ih =>
    exact stable_bind hL hm fun a =>
      stable_bind (consumes_replicate hL n) ih fun as => stable_pure (a :: as)

/-- A word that is read completely leaves every shorter prefix waiting. -/
theorem prefix_waits {limit : ℕ} {L : α → List σ → Prop} (hL : Consumes m L)
    (hm : Stable wait m) {w p : List σ} {a : α} (hr : Reads limit m w a)
    (hl : w.length ≤ limit) (hp : p <+: w) (hne : p ≠ w) :
    (m.run p).1 = .error wait := by
  obtain ⟨ev, hw⟩ := hr.run (show (w ++ []).length ≤ limit by simpa using hl)
  simp only [List.append_nil] at hw
  have hstab := hm ⟨p, 0, []⟩ ⟨w, 0, []⟩ (Nat.zero_le _) ⟨rfl, hp⟩
  have hlt : p.length < w.length :=
    lt_of_le_of_ne hp.length_le fun h => hne (hp.eq_of_length h)
  rcases hr : m.run p with ⟨e | b, c⟩
  · by_contra hn
    obtain ⟨d', hd'⟩ := hstab.2 e c hr (fun h => hn (by rw [h]))
    rw [Reader.run] at hw
    simp [hw] at hd'
  · obtain ⟨d', hd', hpos, _⟩ := hstab.1 b c hr
    have hb := (hL.pos_le (c := ⟨p, 0, []⟩) (Nat.zero_le _) hr).2.2
    rw [Reader.run] at hw
    rw [hw] at hd'
    have hd : d'.pos = w.length := (congrArg (fun r => r.2.pos) hd').symm
    simp only at hb
    omega

end Stability

section Agreement

/-- Two readers agree wherever at most `r` symbols are left. -/
def AgreeUpTo (r : ℕ) (m m' : Reader σ η ε α) : Prop :=
  ∀ c : Cursor σ η, c.pos ≤ c.input.length → c.input.length - c.pos ≤ r → m c = m' c

variable {r : ℕ} {m m' : Reader σ η ε α} {f f' : α → Reader σ η ε β}

theorem agreeUpTo_refl (m : Reader σ η ε α) : AgreeUpTo r m m := fun _ _ _ => rfl

theorem agreeUpTo_bind {L : α → List σ → Prop} (hL : Consumes m L) (hm : AgreeUpTo r m m')
    (hf : ∀ a, AgreeUpTo r (f a) (f' a)) : AgreeUpTo r (m >>= f) (m' >>= f') := by
  intro c hc hr
  rcases hmc : m c with ⟨e | a, d⟩
  · rw [bind_error hmc, bind_error ((hm c hc hr).symm.trans hmc)]
  · obtain ⟨hi, hle, hd⟩ := hL.pos_le hc hmc
    rw [bind_ok hmc, bind_ok ((hm c hc hr).symm.trans hmc)]
    exact hf a d (hi ▸ hd) (by rw [hi]; omega)

theorem agreeUpTo_replicate {L : α → List σ → Prop} (hL : Consumes m L)
    (hm : AgreeUpTo r m m') (n : ℕ) : AgreeUpTo r (replicate m n) (replicate m' n) := by
  induction n with
  | zero => exact agreeUpTo_refl _
  | succ n ih =>
    exact agreeUpTo_bind hL hm fun _ =>
      agreeUpTo_bind (consumes_replicate hL n) ih fun _ => agreeUpTo_refl _

end Agreement

section Traces
variable {P Q : η → Prop} {c : Cursor σ η} {m : Reader σ η ε α} {f : α → Reader σ η ε β}

/-- Every event that `m` adds to the trace when run at `c` satisfies `P`. -/
def EmitsAt (c : Cursor σ η) (m : Reader σ η ε α) (P : η → Prop) : Prop :=
  ∀ v ∈ (m c).2.events, v ∈ c.events ∨ P v

/-- The trace only grows. -/
def Keeps (m : Reader σ η ε α) : Prop := ∀ c v, v ∈ c.events → v ∈ (m c).2.events

theorem EmitsAt.mono (h : EmitsAt c m P) (hPQ : ∀ v, P v → Q v) : EmitsAt c m Q :=
  fun v hv => (h v hv).imp id (hPQ v)

theorem emitsAt_pure (a : α) : EmitsAt c (pure a : Reader σ η ε α) P := fun _ => Or.inl
theorem emitsAt_fail (e : ε) : EmitsAt c (fail e : Reader σ η ε α) P := fun _ => Or.inl
theorem emitsAt_lift (r : Except ε α) : EmitsAt c (lift r : Reader σ η ε α) P := fun _ => Or.inl

theorem emitsAt_emit {v : η} (h : P v) : EmitsAt c (emit v : Reader σ η ε Unit) P := by
  intro w hw
  rcases List.mem_cons.mp hw with rfl | hw
  · exact Or.inr h
  · exact Or.inl hw

theorem emitsAt_bind (hm : EmitsAt c m P)
    (hf : ∀ a d, m c = (.ok a, d) → EmitsAt d (f a) P) : EmitsAt c (m >>= f) P := by
  intro v hv
  rcases hmc : m c with ⟨e | a, d⟩
  · rw [bind_error hmc] at hv
    exact hm v (by rwa [hmc])
  · rw [bind_ok hmc] at hv
    rcases hf a d hmc v hv with hd | hP
    · exact hm v (by rwa [hmc])
    · exact Or.inr hP

theorem emitsAt_cursor_bind {f : Cursor σ η → Reader σ η ε β} (h : EmitsAt c (f c) P) :
    EmitsAt c (cursor >>= f) P := h

theorem emitsAt_seek_bind {f : Unit → Reader σ η ε β} {n : ℕ}
    (h : EmitsAt ⟨c.input, n, c.events⟩ (f ()) P) : EmitsAt c (seek n >>= f) P := h

theorem emitsAt_emit_bind {f : Unit → Reader σ η ε β} {v : η} (hv : P v)
    (h : EmitsAt ⟨c.input, c.pos, v :: c.events⟩ (f ()) P) : EmitsAt c (emit v >>= f) P := by
  refine emitsAt_bind (emitsAt_emit hv) fun _ d hd => ?_
  cases hd
  exact h

/-- A loop whose rounds keep `I`, where `I i` describes the cursor after `i` rounds. -/
theorem emitsAt_replicate {I : ℕ → Cursor σ η → Prop} (n i : ℕ)
    (hround : ∀ j d, j < i + n → I j d →
      EmitsAt d m P ∧ ∀ a d', m d = (.ok a, d') → I (j + 1) d')
    (hI : I i c) : EmitsAt c (replicate m n) P := by
  induction n generalizing i c with
  | zero => exact emitsAt_pure []
  | succ n ih =>
    obtain ⟨hm, hnext⟩ := hround i c (by omega) hI
    refine emitsAt_bind hm fun a d hd => emitsAt_bind ?_ fun as _ _ => emitsAt_pure (a :: as)
    exact ih (i + 1) (fun j d hj => hround j d (by omega)) (hnext a d hd)

theorem keeps_pure (a : α) : Keeps (pure a : Reader σ η ε α) := fun _ _ => id
theorem keeps_fail (e : ε) : Keeps (fail e : Reader σ η ε α) := fun _ _ => id
theorem keeps_cursor : Keeps (cursor : Reader σ η ε _) := fun _ _ => id
theorem keeps_seek (n : ℕ) : Keeps (seek n : Reader σ η ε Unit) := fun _ _ => id
theorem keeps_lift (r : Except ε α) : Keeps (lift r : Reader σ η ε α) := fun _ _ => id
theorem keeps_emit (v : η) : Keeps (emit v : Reader σ η ε Unit) :=
  fun _ _ => List.mem_cons_of_mem v

/-- What follows a reader erases nothing of its trace. -/
theorem mem_events_bind_left {v : η} (hv : v ∈ (m c).2.events) (hf : ∀ a, Keeps (f a)) :
    v ∈ ((m >>= f) c).2.events := by
  rcases hmc : m c with ⟨e | a, d⟩
  · rw [bind_error hmc]
    rwa [hmc] at hv
  · rw [bind_ok hmc]
    rw [hmc] at hv
    exact hf a d v hv

/-- What follows a reader that succeeds contributes its events to the whole run. -/
theorem mem_events_bind {a : α} {d : Cursor σ η} {v : η} (hm : m c = (.ok a, d))
    (hv : v ∈ (f a d).2.events) : v ∈ ((m >>= f) c).2.events := by
  rwa [bind_ok hm]

theorem keeps_bind (hm : Keeps m) (hf : ∀ a, Keeps (f a)) : Keeps (m >>= f) :=
  fun c v hv => mem_events_bind_left (hm c v hv) hf

theorem keeps_replicate (hm : Keeps m) (n : ℕ) : Keeps (replicate m n) := by
  induction n with
  | zero => exact keeps_pure []
  | succ n ih => exact keeps_bind hm fun a => keeps_bind ih fun as => keeps_pure (a :: as)

/-- The events of the round after `as.length` successful ones are in the trace of the loop. -/
theorem mem_events_replicate {limit n : ℕ} {as : List α} {ws : List (List σ)} {v : η}
    (hk : Keeps m) (hr : List.Forall₂ (fun a w => Reads limit m w a) as ws)
    (hn : as.length < n) (pre post : List σ)
    (hl : (pre ++ (ws.flatten ++ post)).length ≤ limit)
    (hv : ∀ ev, v ∈ (m ⟨pre ++ (ws.flatten ++ post), (pre ++ ws.flatten).length, ev⟩).2.events)
    (ev : List η) :
    v ∈ (replicate m n ⟨pre ++ (ws.flatten ++ post), pre.length, ev⟩).2.events := by
  obtain ⟨n, rfl⟩ := Nat.exists_eq_succ_of_ne_zero (Nat.ne_zero_of_lt hn)
  induction hr generalizing n pre ev with
  | nil =>
    apply mem_events_bind_left
    · simpa using hv ev
    · exact fun a => keeps_bind (keeps_replicate hk n) fun as => keeps_pure (a :: as)
  | @cons a w as ws ha _ ih =>
    obtain ⟨n, rfl⟩ := Nat.exists_eq_succ_of_ne_zero
      (Nat.ne_zero_of_lt (Nat.lt_of_succ_lt_succ hn))
    simp only [List.flatten_cons, List.append_assoc] at hl hv ⊢
    obtain ⟨ev', hm⟩ := ha pre (ws.flatten ++ post) ev hl
    have hrest := ih (pre ++ w) (by simpa using hl) (by simpa using hv) ev' n
      (Nat.lt_of_succ_lt_succ hn)
    simp only [List.append_assoc, List.length_append] at hrest
    exact mem_events_bind hm (mem_events_bind_left hrest fun as => keeps_pure (a :: as))

end Traces

end Reader

import Mathlib.Data.Finset.Sort
import Mathlib.Data.Set.Finite.Basic
import Mathlib.Logic.Function.Basic

/-! Maps whose entries may carry a deadline. An entry is alive while its deadline
lies in the future; the view of a map at a time forgets the dead entries. Two maps
with the same view at some time keep the same view under every operation and at
every later time, whatever dead entries either of them still stores. -/

/-- A value that may expire. -/
structure Timed (V τ : Type) where
  value : V
  expireAt : Option τ
  deriving DecidableEq

abbrev TimedMap (K V τ : Type) := K → Option (Timed V τ)

namespace TimedMap
variable {K V τ : Type}

section Updates
variable [DecidableEq K]

def put (k : K) (e : Timed V τ) (m : TimedMap K V τ) : TimedMap K V τ :=
  Function.update m k (some e)

def erase (k : K) (m : TimedMap K V τ) : TimedMap K V τ := Function.update m k none

def clear : TimedMap K V τ := fun _ => none

@[simp] theorem put_self (k : K) (e : Timed V τ) (m : TimedMap K V τ) : put k e m k = some e :=
  Function.update_self ..
@[simp] theorem put_of_ne {k j : K} (h : j ≠ k) (e : Timed V τ) (m : TimedMap K V τ) :
    put k e m j = m j := Function.update_of_ne h ..
@[simp] theorem erase_self (k : K) (m : TimedMap K V τ) : erase k m k = none :=
  Function.update_self ..
@[simp] theorem erase_of_ne {k j : K} (h : j ≠ k) (m : TimedMap K V τ) : erase k m j = m j :=
  Function.update_of_ne h ..

end Updates

section Outlines

/-- A value, and whether it has a deadline. -/
def Timed.outline (e : Timed V τ) : V × Bool := (e.value, e.expireAt.isSome)

/-- The keys and values of a map, and which keys have a deadline. -/
def outline (m : TimedMap K V τ) : K → Option (V × Bool) := fun k => (m k).map Timed.outline

theorem outline_apply (m : TimedMap K V τ) (k : K) : outline m k = (m k).map Timed.outline := rfl

theorem outline_update [DecidableEq K] (m : TimedMap K V τ) (k : K) (o : Option (Timed V τ)) :
    outline (Function.update m k o) = Function.update (outline m) k (o.map Timed.outline) := by
  funext j
  by_cases hj : j = k
  · subst hj
    rw [outline_apply, Function.update_self, Function.update_self]
  · rw [outline_apply, Function.update_of_ne hj, Function.update_of_ne hj, outline_apply]

end Outlines

variable [LinearOrder τ]

def alive (t : τ) (e : Timed V τ) : Bool := e.expireAt.all fun d => decide (t < d)

theorem alive_iff (t : τ) (e : Timed V τ) : alive t e ↔ ∀ d ∈ e.expireAt, t < d := by
  rcases e with ⟨v, _ | d⟩ <;> simp [alive]

theorem alive_of_le {s t : τ} (h : s ≤ t) {e : Timed V τ} (ht : alive t e) : alive s e := by
  rw [alive_iff] at ht ⊢
  exact fun d hd => lt_of_le_of_lt h (ht d hd)

/-- The entries that are alive at time `t`. -/
def view (t : τ) (m : TimedMap K V τ) : TimedMap K V τ := fun k => (m k).filter (alive t)

theorem view_apply (t : τ) (m : TimedMap K V τ) (k : K) : view t m k = (m k).filter (alive t) := rfl

theorem view_eq_some_iff {t : τ} {m : TimedMap K V τ} {k : K} {e : Timed V τ} :
    view t m k = some e ↔ m k = some e ∧ alive t e := by
  simp [view]

theorem view_view {s t : τ} (h : s ≤ t) (m : TimedMap K V τ) : view t (view s m) = view t m := by
  funext k
  simp only [view_apply, Option.filter_filter]
  congr 1
  funext e
  cases ht : alive t e with
  | false => rw [Bool.and_false]
  | true => rw [alive_of_le h ht, Bool.and_true]

/-- Maps that look alike now look alike later. -/
theorem view_eq_of_le {s t : τ} (h : s ≤ t) {m m' : TimedMap K V τ} (hv : view s m = view s m') :
    view t m = view t m' := by
  rw [← view_view h m, hv, view_view h]

theorem view_idem (t : τ) (m : TimedMap K V τ) : view t (view t m) = view t m :=
  view_view le_rfl m

/-- `m'` is `m` without some of its dead entries. -/
def Purge (t : τ) (m m' : TimedMap K V τ) : Prop :=
  ∀ k, m' k = m k ∨ m' k = none ∧ view t m k = none

theorem purge_refl (t : τ) (m : TimedMap K V τ) : Purge t m m := fun _ => Or.inl rfl

theorem purge_view (t : τ) (m : TimedMap K V τ) : Purge t m (view t m) := by
  intro k
  cases hv : view t m k with
  | none => exact Or.inr ⟨rfl, rfl⟩
  | some e => exact Or.inl (view_eq_some_iff.mp hv).1.symm

theorem Purge.view_eq {t : τ} {m m' : TimedMap K V τ} (h : Purge t m m') : view t m' = view t m := by
  funext k
  rcases h k with hk | ⟨hk, hv⟩
  · rw [view_apply, view_apply, hk]
  · rw [hv, view_apply, hk]
    rfl

section Operations
variable [DecidableEq K]

/-- What an update at one key does to the view of a map. -/
theorem view_update (t : τ) (k : K) (o : Option (Timed V τ)) (m : TimedMap K V τ) :
    view t (Function.update m k o) = Function.update (view t m) k (o.filter (alive t)) := by
  funext j
  by_cases h : j = k
  · subst h
    simp [view]
  · simp [view, Function.update_of_ne h]

end Operations

section Effects

/-- `m'` holds `o` under the key `k` and is elsewhere `m` without some of its dead entries. -/
structure Effect (t : τ) (k : K) (m m' : TimedMap K V τ) (o : Option (Timed V τ)) : Prop where
  self : m' k = o
  other : ∀ j, j ≠ k → m' j = m j ∨ m' j = none ∧ view t m j = none

theorem effect_update [DecidableEq K] (t : τ) (k : K) (m : TimedMap K V τ) (o : Option (Timed V τ)) :
    Effect t k m (Function.update m k o) o :=
  ⟨Function.update_self .., fun _ hj => Or.inl (Function.update_of_ne hj ..)⟩

theorem Effect.view_eq [DecidableEq K] {t : τ} {k : K} {m m' : TimedMap K V τ} {o : Option (Timed V τ)}
    (h : Effect t k m m' o) : view t m' = view t (Function.update m k o) := by
  refine Purge.view_eq fun j => ?_
  by_cases hj : j = k
  · subst hj
    exact Or.inl (by rw [h.self, Function.update_self])
  · rw [view_update, Function.update_of_ne hj, Function.update_of_ne hj]
    exact h.other j hj

/-- Dropping dead entries first changes nothing. -/
theorem Purge.effect {t : τ} {k : K} {m n m' : TimedMap K V τ} {o : Option (Timed V τ)}
    (hp : Purge t m n) (h : Effect t k n m' o) : Effect t k m m' o := by
  refine ⟨h.self, fun j hj => ?_⟩
  rcases h.other j hj with hm | ⟨hm, hv⟩
  · rw [hm]
    exact hp j
  · exact Or.inr ⟨hm, hp.view_eq ▸ hv⟩

end Effects

section AllAlive

/-- No deadline of the map is reached at the time `t`. -/
def AllAlive (t : τ) (m : TimedMap K V τ) : Prop := ∀ k e, m k = some e → alive t e

theorem AllAlive.view_eq {t : τ} {m : TimedMap K V τ} (h : AllAlive t m) : view t m = m := by
  funext k
  cases hk : m k with
  | none => rw [view_apply, hk, Option.filter_none]
  | some e => rw [view_apply, hk, Option.filter_some, if_pos (h k e hk)]

theorem AllAlive.eq_of_effect [DecidableEq K] {t : τ} {k : K} {m m' : TimedMap K V τ}
    {o : Option (Timed V τ)} (h : AllAlive t m) (he : Effect t k m m' o) :
    m' = Function.update m k o := by
  funext j
  by_cases hj : j = k
  · subst hj
    rw [he.self, Function.update_self]
  · rw [Function.update_of_ne hj]
    rcases he.other j hj with hm | ⟨hm, hdead⟩
    · exact hm
    · rw [h.view_eq] at hdead
      rw [hm, hdead]

end AllAlive

section Keys
variable [LinearOrder K]

open scoped Classical in
/-- The keys that are alive at time `t`, in ascending order. -/
noncomputable def liveKeys (t : τ) (m : TimedMap K V τ) : List K :=
  if h : {k | (view t m k).isSome}.Finite then h.toFinset.sort (· ≤ ·) else []

theorem liveKeys_congr {t : τ} {m m' : TimedMap K V τ} (h : view t m = view t m') :
    liveKeys t m = liveKeys t m' := by
  unfold liveKeys
  rw [h]

/-- A strictly ascending list of the live keys is `liveKeys`. -/
theorem liveKeys_eq {t : τ} {m : TimedMap K V τ} {ks : List K} (hs : ks.Pairwise (· < ·))
    (hk : ∀ k, k ∈ ks ↔ (view t m k).isSome) : liveKeys t m = ks := by
  have hset : {k | (view t m k).isSome} = (ks.toFinset : Set K) := by
    ext k
    simp [hk]
  have hfin : {k | (view t m k).isSome}.Finite := hset ▸ ks.toFinset.finite_toSet
  rw [liveKeys, dif_pos hfin]
  have hf : hfin.toFinset = ks.toFinset := by
    ext k
    simp [hk]
  rw [hf]
  have hnd : ks.Nodup := hs.imp fun h => ne_of_lt h
  refine (List.perm_of_nodup_nodup_toFinset_eq (Finset.sort_nodup ..) hnd (by simp)).eq_of_pairwise
    (fun a b _ _ h₁ h₂ => le_antisymm h₁ h₂) (Finset.pairwise_sort ..) (hs.imp fun h => le_of_lt h)

end Keys

end TimedMap

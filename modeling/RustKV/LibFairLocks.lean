import RustKV.LibTasks

/-! Fair locks. Who wants a lock queues for it, and only the head of the queue takes it, once its
holders admit that; a reader thus waits behind a writer that came before it. Where every task
takes the locks in the order of their ranks there is no cycle of waiting tasks. -/

namespace Tasks

structure FairConfig (ι C A : Type) (R : A → Type) (L M σ β : Type) where
  config : Config ι C A R L M σ β
  queue : L → List ι

section Steps
variable {ι C A : Type} {R : A → Type} {L M σ β : Type}
  [DecidableEq ι] [DecidableEq L] [DecidableEq M]

inductive FairStep (S : System ι C A R L M σ β) (fc : FairConfig ι C A R L M σ β) :
    FairConfig ι C A R L M σ β → Prop
  | request {i : ι} {lock : L} : Awaits S fc.config i lock → i ∉ fc.queue lock →
      FairStep S fc ⟨fc.config, Function.update fc.queue lock (fc.queue lock ++ [i])⟩
  | grant {i : ι} {lock : L} {rest : List ι} {cfg : Config ι C A R L M σ β} :
      Awaits S fc.config i lock → fc.queue lock = i :: rest → Step S fc.config (.act i) cfg →
      FairStep S fc ⟨cfg, Function.update fc.queue lock rest⟩
  | other {label : Label ι} {cfg : Config ι C A R L M σ β} :
      (∀ i lock, label.task = some i → ¬ Awaits S fc.config i lock) →
      Step S fc.config label cfg → FairStep S fc ⟨cfg, fc.queue⟩

def FairReachable (S : System ι C A R L M σ β) (s : σ) : FairConfig ι C A R L M σ β → Prop :=
  Relation.ReflTransGen (FairStep S) ⟨.initial s, fun _ => []⟩

/-- The task `i` queues for a lock that `j` holds, or for which `j` queues before it. -/
def WaitsFor (fc : FairConfig ι C A R L M σ β) (i j : ι) : Prop :=
  ∃ lock, i ∈ fc.queue lock ∧
    (Holds fc.config j lock ∨ (fc.queue lock).idxOf j < (fc.queue lock).idxOf i)

/-- A task that wants a lock holds only locks of lower rank. -/
def Ordered (S : System ι C A R L M σ β) (rank : L → ℕ) (cfg : Config ι C A R L M σ β) : Prop :=
  ∀ i lock, Awaits S cfg i lock → ∀ guard ∈ (cfg.status i).held, rank guard.1 < rank lock

variable {S : System ι C A R L M σ β} {fc fc' : FairConfig ι C A R L M σ β} {s : σ}

omit [DecidableEq ι] [DecidableEq L] [DecidableEq M] in
theorem Awaits.unique {cfg : Config ι C A R L M σ β} {i : ι} {lock lock' : L}
    (h : Awaits S cfg i lock) (h' : Awaits S cfg i lock') : lock = lock' := by
  obtain ⟨c, a, k, held, mode, hi, ha⟩ := h
  obtain ⟨c', a', k', held', mode', hi', ha'⟩ := h'
  rw [hi] at hi'
  cases hi'
  rw [ha] at ha'
  cases ha'
  rfl

theorem Awaits.of_step {cfg cfg' : Config ι C A R L M σ β} {label : Label ι} {j : ι} {lock : L}
    (ha : Awaits S cfg j lock) (h : Step S cfg label cfg') (hj : label.task ≠ some j) :
    Awaits S cfg' j lock := by
  unfold Awaits
  rw [h.status_eq hj]
  exact ha

/-- What the queues hold: each waiting task once, at the lock that it awaits. -/
structure Queued (S : System ι C A R L M σ β) (fc : FairConfig ι C A R L M σ β) : Prop where
  awaits : ∀ lock, ∀ i ∈ fc.queue lock, Awaits S fc.config i lock
  nodup : ∀ lock, (fc.queue lock).Nodup

omit [DecidableEq ι] [DecidableEq M] in
theorem Queued.update (hq : Queued S fc) {cfg : Config ι C A R L M σ β} {lock : L} {queue : List ι}
    (hlock : ∀ i ∈ queue, Awaits S cfg i lock) (hnd : queue.Nodup)
    (hother : ∀ lock' ≠ lock, ∀ i ∈ fc.queue lock', Awaits S cfg i lock') :
    Queued S ⟨cfg, Function.update fc.queue lock queue⟩ := by
  constructor
  all_goals
    intro lock'
    dsimp only
    by_cases hl : lock' = lock
  · subst hl
    rwa [Function.update_self]
  · rw [Function.update_of_ne hl]
    exact hother lock' hl
  · subst hl
    rwa [Function.update_self]
  · rw [Function.update_of_ne hl]
    exact hq.nodup lock'

theorem Queued.of_step (hq : Queued S fc) (h : FairStep S fc fc') : Queued S fc' := by
  cases h with
  | @request i lock ha hi =>
    refine hq.update (fun j hj => ?_) ?_ fun lock' _ => hq.awaits lock'
    · rcases List.mem_append.mp hj with hj | hj
      · exact hq.awaits lock j hj
      · exact List.mem_singleton.mp hj ▸ ha
    · refine List.nodup_append.mpr ⟨hq.nodup lock, List.pairwise_singleton .., ?_⟩
      rintro a haq b hb rfl
      exact hi (List.mem_singleton.mp hb ▸ haq)
  | @grant i lock rest cfg ha hhead hstep =>
    have hnd := hq.nodup lock
    rw [hhead, List.nodup_cons] at hnd
    refine hq.update (fun j hj => ?_) hnd.2 fun lock' hl j hj => ?_
    · refine (hq.awaits lock j (hhead ▸ List.mem_cons_of_mem i hj)).of_step hstep ?_
      rintro ⟨⟩
      exact hnd.1 hj
    · refine (hq.awaits lock' j hj).of_step hstep ?_
      rintro ⟨⟩
      exact hl ((hq.awaits lock' _ hj).unique ha)
  | @other label cfg hother hstep =>
    refine ⟨fun lock j hj => ?_, hq.nodup⟩
    exact (hq.awaits lock j hj).of_step hstep fun hlabel =>
      hother j lock hlabel (hq.awaits lock j hj)

theorem queued_of_fairReachable (h : FairReachable S s fc) : Queued S fc := by
  induction h with
  | refl => exact ⟨by simp, by simp⟩
  | tail _ hstep ih => exact ih.of_step hstep

/-- Fair locks only forbid some of the interleavings. -/
theorem reachable_of_fairReachable (h : FairReachable S s fc) : Reachable S s fc.config := by
  induction h with
  | refl => exact ⟨[], .nil⟩
  | tail _ hstep ih =>
    cases hstep with
    | request => exact ih
    | grant _ _ hstep => exact ih.step hstep
    | other _ hstep => exact ih.step hstep

/-- The task `j` awaits a lock of higher rank than `i`, or stands before it in a queue. -/
def Later (S : System ι C A R L M σ β) (rank : L → ℕ) (fc : FairConfig ι C A R L M σ β)
    (i j : ι) : Prop :=
  ∃ lock lock', Awaits S fc.config i lock ∧ Awaits S fc.config j lock' ∧
    (rank lock < rank lock' ∨
      lock = lock' ∧ (fc.queue lock).idxOf j < (fc.queue lock).idxOf i)

omit [DecidableEq L] [DecidableEq M] in
theorem Later.trans {rank : L → ℕ} {i j k : ι} (h : Later S rank fc i j)
    (h' : Later S rank fc j k) : Later S rank fc i k := by
  obtain ⟨l, l₁, hi, hj, hij⟩ := h
  obtain ⟨l₂, l₃, hj', hk, hjk⟩ := h'
  cases hj.unique hj'
  refine ⟨l, l₃, hi, hk, ?_⟩
  rcases hij with hij | ⟨rfl, hij⟩ <;> rcases hjk with hjk | ⟨rfl, hjk⟩
  · exact .inl (Nat.lt_trans hij hjk)
  · exact .inl hij
  · exact .inl hjk
  · exact .inr ⟨rfl, Nat.lt_trans hjk hij⟩

omit [DecidableEq L] [DecidableEq M] in
theorem later_irrefl {rank : L → ℕ} {i : ι} : ¬ Later S rank fc i i := by
  rintro ⟨l, l', hi, hi', h⟩
  cases hi.unique hi'
  rcases h with h | ⟨-, h⟩ <;> exact Nat.lt_irrefl _ h

omit [DecidableEq L] [DecidableEq M] in
theorem WaitsFor.later {rank : L → ℕ} (hq : Queued S fc) (ho : Ordered S rank fc.config) {i j : ι}
    {lock : L} (h : WaitsFor fc i j) (hj : j ∈ fc.queue lock) : Later S rank fc i j := by
  obtain ⟨l, hi, hholds | hahead⟩ := h
  · obtain ⟨mode, hg⟩ := hholds
    exact ⟨l, lock, hq.awaits l i hi, hq.awaits lock j hj,
      .inl (ho j lock (hq.awaits lock j hj) _ hg)⟩
  · have hjl : j ∈ fc.queue l := List.idxOf_lt_length_iff.mp
      (Nat.lt_trans hahead (List.idxOf_lt_length_iff.mpr hi))
    exact ⟨l, l, hq.awaits l i hi, hq.awaits l j hjl, .inr ⟨rfl, hahead⟩⟩

omit [DecidableEq L] [DecidableEq M] in
/-- With ordered locks no task waits for itself, over any number of others. -/
theorem not_waitsFor_cycle {rank : L → ℕ} (hq : Queued S fc) (ho : Ordered S rank fc.config)
    (i : ι) : ¬ Relation.TransGen (WaitsFor fc) i i := by
  have hpath {i j : ι} (h : Relation.TransGen (WaitsFor fc) i j) {lock : L}
      (hj : j ∈ fc.queue lock) : Later S rank fc i j := by
    induction h generalizing lock with
    | single h => exact h.later hq ho hj
    | tail _ h ih =>
      obtain ⟨l, hb, -⟩ := id h
      exact (ih hb).trans (h.later hq ho hj)
  intro h
  have hi : ∃ lock, i ∈ fc.queue lock := by
    obtain ⟨j, ⟨l, hi, -⟩, -⟩ := Relation.TransGen.head'_iff.mp h
    exact ⟨l, hi⟩
  obtain ⟨lock, hi⟩ := hi
  exact later_irrefl (hpath h hi)

end Steps

section Play
variable {ι C A : Type} {R : A → Type} {L M σ β : Type}
  [DecidableEq ι] [DecidableEq L] [DecidableEq M] [Fintype ι] {S : System ι C A R L M σ β}
  [DecidableRel S.compatible] {h : ι → (a : A) → σ → Option (Option (R a) × σ)}
  {fc fc' : FairConfig ι C A R L M σ β} {s : σ}

/-- The lock that a task wants next. -/
def wanted (S : System ι C A R L M σ β) (cfg : Config ι C A R L M σ β) (i : ι) : Option L :=
  match cfg.status i with
  | .running _ (.act a _) _ =>
    match S.use a with
    | .acquire lock _ => some lock
    | _ => none
  | _ => none

omit [DecidableEq ι] [DecidableEq L] [DecidableEq M] [Fintype ι] [DecidableRel S.compatible] in
theorem wanted_eq_some_iff {cfg : Config ι C A R L M σ β} {i : ι} {lock : L} :
    wanted S cfg i = some lock ↔ Awaits S cfg i lock := by
  unfold wanted
  constructor
  · intro hw
    split at hw
    · rename_i c a k held hi
      split at hw
      · rename_i lock' mode ha
        cases hw
        exact ⟨c, a, k, held, mode, hi, ha⟩
      · cases hw
    · cases hw
  · rintro ⟨c, a, k, held, mode, hi, ha⟩
    rw [hi]
    dsimp only
    rw [ha]

/-- Make a move: a task that wants a lock queues for it first, and takes it at the head of the
queue. -/
def fairPlay (S : System ι C A R L M σ β) [DecidableRel S.compatible]
    (h : ι → (a : A) → σ → Option (Option (R a) × σ)) (fc : FairConfig ι C A R L M σ β) :
    Move ι C → Option (FairConfig ι C A R L M σ β)
  | .start i c => (play S h fc.config (.start i c)).map fun cfg => ⟨cfg, fc.queue⟩
  | .go i =>
    match wanted S fc.config i with
    | none => (play S h fc.config (.go i)).map fun cfg => ⟨cfg, fc.queue⟩
    | some lock =>
      if i ∈ fc.queue lock then
        if (fc.queue lock).head? = some i ∧ labelOf h fc.config (.go i) = .act i then
          (play S h fc.config (.go i)).map fun cfg =>
            ⟨cfg, Function.update fc.queue lock (fc.queue lock).tail⟩
        else none
      else some ⟨fc.config, Function.update fc.queue lock (fc.queue lock ++ [i])⟩

omit [DecidableEq ι] [DecidableEq L] [DecidableEq M] [Fintype ι] in
theorem labelOf_go_task {cfg : Config ι C A R L M σ β} (i : ι) :
    (labelOf h cfg (.go i)).task = some i := by
  simp only [labelOf]
  split
  · split <;> rfl
  · rfl

theorem fairStep_of_fairPlay (hdoes : Handles S h) {move : Move ι C}
    (hstarts : ∀ i c, move = .start i c → S.starts i c) (hp : fairPlay S h fc move = some fc') :
    FairStep S fc fc' := by
  cases move with
  | start i c =>
    obtain ⟨cfg, hplay, rfl⟩ := Option.map_eq_some_iff.mp hp
    have hstep := step_of_play hdoes hstarts hplay
    refine .other ?_ hstep
    rintro j lock hj ⟨_, _, _, _, _, hi, -⟩
    cases hj
    cases hstep with
    | start hidle =>
      rw [hidle] at hi
      cases hi
  | go i =>
    simp only [fairPlay] at hp
    split at hp
    · rename_i hwants
      obtain ⟨cfg, hplay, rfl⟩ := Option.map_eq_some_iff.mp hp
      refine .other ?_ (step_of_play hdoes hstarts hplay)
      rintro j lock hj hawaits
      obtain rfl : i = j := Option.some.inj ((labelOf_go_task i).symm.trans hj)
      rw [wanted_eq_some_iff.mpr hawaits] at hwants
      cases hwants
    · rename_i lock hwants
      have hawaits := wanted_eq_some_iff.mp hwants
      split_ifs at hp with hmem hhead
      · obtain ⟨cfg, hplay, rfl⟩ := Option.map_eq_some_iff.mp hp
        have hstep := step_of_play hdoes hstarts hplay
        rw [hhead.2] at hstep
        exact .grant hawaits (List.cons_head?_tail hhead.1).symm hstep
      · cases hp
        exact .request hawaits hmem

theorem fairReachable_of_fairPlays (hdoes : Handles S h) {moves : List (Move ι C)}
    (hstarts : ∀ i c, Move.start i c ∈ moves → S.starts i c) (hr : FairReachable S s fc)
    (hp : moves.foldlM (fairPlay S h) fc = some fc') : FairReachable S s fc' := by
  induction moves generalizing fc with
  | nil =>
    cases hp
    exact hr
  | cons move moves ih =>
    rw [List.foldlM_cons, Option.bind_eq_bind, Option.bind_eq_some_iff] at hp
    obtain ⟨fc₁, hfirst, hrest⟩ := hp
    have hstep := fairStep_of_fairPlay hdoes (fun i c hm => hstarts i c (hm ▸ List.mem_cons_self)) hfirst
    exact ih (fun i c hm => hstarts i c (List.mem_cons_of_mem _ hm)) (hr.tail hstep) hrest

end Play

section Ascending
variable {ι C A : Type} {R : A → Type} {L M σ β : Type} [DecidableEq L] [DecidableEq M]

/-- Locks are taken in ascending order of their ranks. The state is the list of the guards. -/
def ascending (use : A → LockUse L M) (rank : L → ℕ) : Protocol A R (List (L × M)) where
  allows held a := ∀ lock mode, use a = .acquire lock mode → ∀ guard ∈ held, rank guard.1 < rank lock
  next held a _ := (use a).after held

/-- A program that does not use locks. -/
theorem follows_of_lockFree {use : A → LockUse L M} {rank : L → ℕ} {α : Type} {p : Prog A R α}
    (hp : p.Only fun a => use a = .none) (held : List (L × M)) :
    p.Follows (ascending use rank) (fun held' _ => held' = held) held := by
  refine hp.follows (fun a ha lock mode hl => ?_) (fun a r ha => ?_) fun _ => rfl
  · rw [ha] at hl
    cases hl
  · change (use a).after held = held
    rw [ha]
    rfl

variable [DecidableEq ι] {S : System ι C A R L M σ β} {cfg : Config ι C A R L M σ β} {s : σ}

/-- If all programs take the locks in ascending order, the waiting tasks are ordered. -/
theorem ordered_of_reachable {rank : L → ℕ} {π : C → Protocol A R (List (L × M))}
    {final : C → List (L × M) → β → Prop} (hd : Disciplined S π final [] id)
    (hπ : ∀ c held a, (π c).allows held a → (ascending (R := R) S.use rank).allows held a)
    (h : Reachable S s cfg) : Ordered S rank cfg := by
  rintro i lock ⟨c, a, k, held, mode, hi, ha⟩ guard hg
  obtain ⟨st, hf, rfl, -⟩ := hd.follows_of_reachable h hi
  rw [hi] at hg
  exact hπ c _ a hf.1 lock mode ha guard hg

end Ascending

end Tasks

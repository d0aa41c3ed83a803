import RustKV.ShardedOrder

/-! A DEL of several keys beside operations on single keys. It gives back the lock of a shard
before it takes the next one, so the others may see it half done. It takes effect as a whole at a
moment of its run if its keys are left alone from their deletion to the moment, and from the
moment to their deletion. -/
namespace RustKV
open Decimal TimedMap Tasks Prog ShardedDatabase

/-- A section on one key, and what it found alive under the key. -/
structure KeySection (ι : Type) where
  task : ι
  clock : Clock
  key : String
  op : KeyOp
  found : Option Entry

/-- An operation that took effect at one point. -/
structure OpEvent (ι : Type) where
  task : ι
  clock : Clock
  reply : DbReply

namespace KeySection
variable {ι : Type}

def reply (x : KeySection ι) : DbReply := x.op.wrap (x.op.reply x.clock x.found)

def event (x : KeySection ι) : AtomEvent ι := ⟨x.task, x.clock, .key x.key x.op, .reply x.reply⟩

def opEvent (x : KeySection ι) : OpEvent ι := ⟨x.task, x.clock, x.reply⟩

/-- The keys that a deletion removed. -/
def removed (x : KeySection ι) : ℕ := if x.found.isSome then 1 else 0

end KeySection

section Definitions
variable {ι : Type} [DecidableEq ι] {n : ℕ}

/-- The section that a step runs. -/
def sectionsAt (hash : String → UInt64) (cfg : DbConfig ι n) : Label ι → List (KeySection ι)
  | .act i =>
    match cfg.status i with
    | .running _ (.act (.shard _ (.key key op)) _) _ =>
      [⟨i, cfg.shared.clock, key, op,
        view cfg.shared.clock.instant (cfg.shared.db.toMap hash) key⟩]
    | _ => []
  | _ => []

/-- The sections of the task `d`. -/
def ownSections (d : ι) (xs : List (KeySection ι)) : List (KeySection ι) :=
  xs.filter fun x => x.task = d

def otherSections (d : ι) (xs : List (KeySection ι)) : List (KeySection ι) :=
  xs.filter fun x => x.task ≠ d

/-- The tasks other than `d` do not use the keys `avoid k`, where `k` is the number of the sections
of `d` so far. -/
def LeavesAlone (d : ι) (avoid : ℕ → List String) : ℕ → List (KeySection ι) → Prop
  | _, [] => True
  | k, x :: xs =>
    if x.task = d then LeavesAlone d avoid (k + 1) xs
    else x.key ∉ avoid k ∧ LeavesAlone d avoid k xs

/-- The keys of the DEL of `d` are left alone around a moment, at which the store shows `m`: no
other task uses them between their deletion and the moment, and no entry that the DEL removes
expires in between. -/
structure Apart (keys : List String) (d : ι) (before : List (KeySection ι)) (c : Clock)
    (m : TimedMap String Bytes Instant) (after : List (KeySection ι)) : Prop where
  deleted : LeavesAlone d keys.take 0 before
  pending : LeavesAlone d keys.drop (ownSections d before).length after
  lasts : ∀ x ∈ ownSections d before, ∀ entry ∈ x.found, alive c.instant entry
  lasted : ∀ x ∈ ownSections d after, ∀ entry ∈ view c.instant m x.key, alive x.clock.instant entry

instance decidableLeavesAlone (d : ι) (avoid : ℕ → List String) :
    ∀ (k : ℕ) (xs : List (KeySection ι)), Decidable (LeavesAlone d avoid k xs)
  | _, [] => isTrue trivial
  | k, x :: xs =>
    let _ := decidableLeavesAlone d avoid (k + 1) xs
    let _ := decidableLeavesAlone d avoid k xs
    inferInstanceAs (Decidable (if x.task = d then LeavesAlone d avoid (k + 1) xs
      else x.key ∉ avoid k ∧ LeavesAlone d avoid k xs))

/-- The operations one after the other on the abstract map. -/
def Serial (calls : ι → DbCall) (m : TimedMap String Bytes Instant) :
    List (OpEvent ι) → TimedMap String Bytes Instant → Prop
  | [], m' => m' = m
  | e :: es, m' => ∃ o, calls e.task = .op o ∧ e.reply = (o.spec e.clock m).1 ∧
      Serial calls (o.spec e.clock m).2 es m'

/-- An order in which every operation, a DEL included, takes effect as a whole while it runs. -/
structure SerialOrder (S : System ι DbCall (DbAct n) DbAct.Answer (DbLock n) LockMode (Clocked n)
    CallReply) (calls : ι → DbCall) (m₀ : TimedMap String Bytes Instant) (init : DbConfig ι n)
    (labels : List (Label ι)) (cfg : DbConfig ι n) (order : List (OpEvent ι)) : Prop where
  legal : ∃ m, Serial calls m₀ order m
  clocks : order.Pairwise fun e f => e.clock.instant ≤ f.clock.instant
  once : (order.map OpEvent.task).Nodup
  results : ∀ i r, cfg.status i = .done (some r) → ∃ e ∈ order, e.task = i ∧ r = .reply e.reply
  moments : ∀ e ∈ order, ∃ before after cfg', labels = before ++ after ∧ Run S init before cfg' ∧
    (cfg'.status e.task).isRunning ∧ e.clock = cfg'.shared.clock
  realTime : ∀ i j, Precedes labels i j → order.Pairwise fun e f => ¬ (e.task = j ∧ f.task = i)

end Definitions

section Counting
variable {t : Instant} {m m' : TimedMap String Bytes Instant}

theorem liveCount_congr_on {keys : List String} (h : ∀ k ∈ keys, m k = m' k) :
    liveCount t m keys = liveCount t m' keys := by
  unfold liveCount
  congr 1
  refine Finset.filter_congr fun k hk => ?_
  rw [view_apply, view_apply, h k (List.mem_toFinset.mp hk)]

theorem liveCount_concat (keys : List String) (key : String) :
    liveCount t m (keys ++ [key]) =
      liveCount t m keys + if (view t (eraseAll keys m) key).isSome then 1 else 0 := by
  induction keys generalizing m with
  | nil =>
    have hnil : eraseAll [] m = m := funext fun k => by simp [eraseAll]
    rw [List.nil_append, liveCount_cons, hnil, Nat.add_comm]
    rfl
  | cons k keys ih => rw [List.cons_append, liveCount_cons, liveCount_cons, ih, eraseAll_cons, Nat.add_assoc]

theorem liveCount_append (keys more : List String) :
    liveCount t m (keys ++ more) = liveCount t m keys + liveCount t (eraseAll keys m) more := by
  induction keys generalizing m with
  | nil =>
    have hnil : eraseAll [] m = m := funext fun k => by simp [eraseAll]
    rw [List.nil_append, hnil]
    simp [liveCount]
  | cons k keys ih => rw [List.cons_append, liveCount_cons, liveCount_cons, ih, eraseAll_cons, Nat.add_assoc]

end Counting

section Maps
variable {ι : Type} [DecidableEq ι] {calls : ι → DbCall} {d : ι} {keys : List String} {c : Clock}
  {m m' m₁ : TimedMap String Bytes Instant} {xs : List (KeySection ι)}

/-- What the sections found, one after the other. -/
def Finds (m : TimedMap String Bytes Instant) :
    List (KeySection ι) → TimedMap String Bytes Instant → Prop
  | [], m' => m' = m
  | x :: xs, m' => x.found = view x.clock.instant m x.key ∧
      Finds (Function.update m x.key (x.op.leaves x.clock x.found)) xs m'

/-- The sections of `d` are deletions of these keys, in this order, and the others each do an
operation on a single key. -/
structure Roles (calls : ι → DbCall) (d : ι) (rest : List String) (xs : List (KeySection ι)) :
    Prop where
  own : (ownSections d xs).map (fun x => (x.key, x.op)) <+: rest.map fun k => (k, .del)
  others : ∀ x ∈ otherSections d xs, ∃ o, calls x.task = .op o ∧ o.keyOp = some (x.key, x.op)

theorem Roles.tail {rest : List String} {x : KeySection ι} (h : Roles calls d rest (x :: xs))
    (hx : x.task = d) : ∃ rest', rest = x.key :: rest' ∧ x.op = .del ∧ Roles calls d rest' xs := by
  have hown := h.own
  simp only [ownSections, List.filter_cons, hx, decide_true, if_true, List.map_cons] at hown
  rcases rest with _ | ⟨k, rest⟩
  · cases List.prefix_nil.mp hown
  · rw [List.map_cons, List.cons_prefix_cons, Prod.mk.injEq] at hown
    obtain ⟨⟨rfl, hop⟩, hown⟩ := hown
    refine ⟨rest, rfl, hop, hown, fun y hy => h.others y ?_⟩
    exact List.mem_filter.mpr ⟨List.mem_cons_of_mem x (List.mem_of_mem_filter hy),
      (List.mem_filter.mp hy).2⟩

theorem Roles.tail_other {rest : List String} {x : KeySection ι} (h : Roles calls d rest (x :: xs))
    (hx : x.task ≠ d) : (∃ o, calls x.task = .op o ∧ o.keyOp = some (x.key, x.op)) ∧
      Roles calls d rest xs := by
  refine ⟨h.others x (by simp [otherSections, hx]), ?_, fun y hy => h.others y ?_⟩
  · have hown := h.own
    simpa only [ownSections, List.filter_cons, hx, decide_false, Bool.false_eq_true, if_false]
      using hown
  · exact List.mem_filter.mpr ⟨List.mem_cons_of_mem x (List.mem_of_mem_filter hy),
      (List.mem_filter.mp hy).2⟩

/-- An operation on a single key replies and leaves what its section does. -/
theorem DbOp.spec_of_keyOp {o : DbOp} {key : String} {op : KeyOp} (h : o.keyOp = some (key, op)) :
    o.spec c m = (op.wrap (op.reply c (view c.instant m key)),
      Function.update m key (op.leaves c (view c.instant m key))) := by
  cases o <;> cases h <;> rfl

omit [DecidableEq ι] in
/-- The maps agree but on these keys: a section on another key does the same on both. -/
theorem serial_step {x : KeySection ι} {es : List (OpEvent ι)} {m'' : TimedMap String Bytes Instant}
    (hcall : ∃ o, calls x.task = .op o ∧ o.keyOp = some (x.key, x.op)) (hm : m' x.key = m x.key)
    (hfound : x.found = view x.clock.instant m x.key)
    (h : Serial calls (Function.update m' x.key (x.op.leaves x.clock x.found)) es m'') :
    Serial calls m' (x.opEvent :: es) m'' := by
  obtain ⟨o, ho, hop⟩ := hcall
  have hview : view x.clock.instant m' x.key = x.found := by
    rw [hfound, view_apply, view_apply, hm]
  have hspec := DbOp.spec_of_keyOp (c := x.clock) (m := m') hop
  rw [hview] at hspec
  refine ⟨o, ho, ?_, ?_⟩
  · rw [show x.opEvent.clock = x.clock from rfl, hspec]
    rfl
  · rw [show x.opEvent.clock = x.clock from rfl, hspec]
    exact h

theorem eraseAll_eq_none {ks : List String} {k : String} (h : k ∈ ks) : eraseAll ks m k = none := by
  simp [eraseAll, h]

theorem eraseAll_of_notMem {ks : List String} {k : String} (h : k ∉ ks) : eraseAll ks m k = m k := by
  simp [eraseAll, h]

/-- Whether an entry is alive, at two times between which it does not expire. -/
theorem isSome_view_congr {t t' : Instant} {key : String} (hle : t ≤ t')
    (hlasts : ∀ entry ∈ view t m key, alive t' entry) :
    (view t m key).isSome = (view t' m key).isSome := by
  rw [Bool.eq_iff_iff, Option.isSome_iff_exists, Option.isSome_iff_exists]
  constructor
  · rintro ⟨entry, he⟩
    exact ⟨entry, view_eq_some_iff.mpr ⟨(view_eq_some_iff.mp he).1, hlasts entry he⟩⟩
  · rintro ⟨entry, he⟩
    obtain ⟨hm, halive⟩ := view_eq_some_iff.mp he
    exact ⟨entry, view_eq_some_iff.mpr ⟨hm, alive_of_le hle halive⟩⟩

/-- Before the moment: the others do the same on a map `m'` from which nothing is deleted. -/
theorem serial_before {done rest : List String} (hkeys : keys = done ++ rest)
    (hroles : Roles calls d rest xs) (hfinds : Finds m xs m₁)
    (hleave : LeavesAlone d keys.take done.length xs) (hclock : ∀ x ∈ xs, x.clock.instant ≤ c.instant)
    (hlasts : ∀ x ∈ ownSections d xs, ∀ entry ∈ x.found, alive c.instant entry)
    (hsame : ∀ k ∉ done, m' k = m k) (hgone : ∀ k ∈ done, m k = none) :
    ∃ done' rest' m'', keys = done' ++ rest' ∧
      done'.length = done.length + (ownSections d xs).length ∧
      Serial calls m' ((otherSections d xs).map KeySection.opEvent) m'' ∧
      (∀ k ∉ done', m'' k = m₁ k) ∧ (∀ k ∈ done', m₁ k = none) ∧
      liveCount c.instant m'' done' = liveCount c.instant m' done +
        ((ownSections d xs).map KeySection.removed).sum := by
  induction xs generalizing done rest m m' with
  | nil =>
    cases hfinds
    exact ⟨done, rest, m', hkeys, by simp [ownSections], rfl, hsame, hgone, by simp [ownSections]⟩
  | cons x xs ih =>
    obtain ⟨hfound, hfinds⟩ := hfinds
    have hclock' : ∀ y ∈ xs, y.clock.instant ≤ c.instant :=
      fun y hy => hclock y (List.mem_cons_of_mem x hy)
    rw [LeavesAlone] at hleave
    by_cases hx : x.task = d
    · -- a deletion
      rw [if_pos hx] at hleave
      obtain ⟨rest', rfl, hop, hroles⟩ := hroles.tail hx
      have hown : ownSections d (x :: xs) = x :: ownSections d xs := by simp [ownSections, hx]
      have hother : otherSections d (x :: xs) = otherSections d xs := by simp [otherSections, hx]
      rw [hown] at hlasts ⊢
      rw [hother]
      obtain ⟨hlast, hlasts⟩ := List.forall_mem_cons.mp hlasts
      have hleaves : x.op.leaves x.clock x.found = none := by rw [hop]; rfl
      rw [hleaves] at hfinds
      have hkeys₁ : keys = (done ++ [x.key]) ++ rest' := by simpa using hkeys
      have hsame₁ : ∀ k ∉ done ++ [x.key], m' k = Function.update m x.key none k := by
        intro k hk
        simp only [List.mem_append, List.mem_singleton, not_or] at hk
        rw [Function.update_of_ne hk.2, hsame k hk.1]
      have hgone₁ : ∀ k ∈ done ++ [x.key], Function.update m x.key none k = none := by
        intro k hk
        by_cases hkx : k = x.key
        · rw [hkx, Function.update_self]
        · rw [Function.update_of_ne hkx]
          refine hgone k ?_
          simpa [hkx] using hk
      obtain ⟨done', rest'', m'', hk, hlen, hserial, hsame', hgone', hcount⟩ :=
        ih hkeys₁ hroles hfinds (by simpa using hleave) hclock' hlasts hsame₁ hgone₁
      refine ⟨done', rest'', m'', hk, by rw [hlen]; simp; omega, hserial, hsame', hgone', ?_⟩
      rw [hcount, liveCount_concat, List.map_cons, List.sum_cons, Nat.add_assoc]
      -- the key counts at the moment exactly when the deletion removed an entry
      congr 2
      rw [KeySection.removed]
      have hlive : (view c.instant (eraseAll done m') x.key).isSome = x.found.isSome := by
        by_cases hmem : x.key ∈ done
        · rw [hfound, view_apply, view_apply, eraseAll_eq_none hmem, hgone x.key hmem]
          rfl
        · rw [view_apply, eraseAll_of_notMem hmem, hsame x.key hmem, ← view_apply, hfound]
          refine (isSome_view_congr (hclock x List.mem_cons_self) ?_).symm
          rwa [← hfound]
      rw [hlive]
    · -- an operation of another task
      rw [if_neg hx] at hleave
      obtain ⟨havoid, hleave⟩ := hleave
      have hmem : x.key ∉ done := by simpa [hkeys] using havoid
      obtain ⟨hcall, hroles⟩ := hroles.tail_other hx
      have hown : ownSections d (x :: xs) = ownSections d xs := by simp [ownSections, hx]
      have hother : otherSections d (x :: xs) = x :: otherSections d xs := by simp [otherSections, hx]
      rw [hown] at hlasts ⊢
      rw [hother]
      have hne {k : String} (hk : k ∈ done) : k ≠ x.key := fun h => hmem (h ▸ hk)
      let left := x.op.leaves x.clock x.found
      have hsame₁ : ∀ k ∉ done,
          Function.update m' x.key left k = Function.update m x.key left k := by
        intro k hk
        by_cases hkx : k = x.key
        · rw [hkx, Function.update_self, Function.update_self]
        · rw [Function.update_of_ne hkx, Function.update_of_ne hkx, hsame k hk]
      obtain ⟨done', rest', m'', hk, hlen, hserial, hsame', hgone', hcount⟩ :=
        ih hkeys hroles hfinds hleave hclock' hlasts hsame₁
          (fun k hk => by rw [Function.update_of_ne (hne hk), hgone k hk])
      refine ⟨done', rest', m'', hk, hlen, serial_step hcall (hsame x.key hmem) hfound hserial, hsame',
        hgone', ?_⟩
      rw [hcount, liveCount_congr_on fun k hk => Function.update_of_ne (hne hk) ..]

/-- After the moment, at which the store showed `m₁`: the others do the same on a map `m'` from
which everything is deleted. `gone` are the keys deleted since. -/
theorem serial_after {done rest gone : List String} {m₂ : TimedMap String Bytes Instant}
    (hkeys : keys = done ++ rest)
    (hroles : Roles calls d rest xs) (hfinds : Finds m xs m₂)
    (hleave : LeavesAlone d keys.drop done.length xs) (hclock : ∀ x ∈ xs, c.instant ≤ x.clock.instant)
    (hlasted : ∀ x ∈ ownSections d xs, ∀ entry ∈ view c.instant m₁ x.key, alive x.clock.instant entry)
    (hsame : ∀ k ∉ rest, m' k = m k) (hgone : ∀ k ∈ rest, m' k = none)
    (hkept : ∀ k ∈ rest, m k = eraseAll gone m₁ k) :
    ∃ m'', Serial calls m' ((otherSections d xs).map KeySection.opEvent) m'' ∧
      liveCount c.instant m₁ gone + ((ownSections d xs).map KeySection.removed).sum =
        liveCount c.instant m₁ (gone ++ rest.take (ownSections d xs).length) := by
  induction xs generalizing done rest gone m m' with
  | nil => exact ⟨m', rfl, by simp [ownSections]⟩
  | cons x xs ih =>
    obtain ⟨hfound, hfinds⟩ := hfinds
    have hclock' : ∀ y ∈ xs, c.instant ≤ y.clock.instant :=
      fun y hy => hclock y (List.mem_cons_of_mem x hy)
    rw [LeavesAlone] at hleave
    by_cases hx : x.task = d
    · -- a deletion
      rw [if_pos hx] at hleave
      obtain ⟨rest', rfl, hop, hroles⟩ := hroles.tail hx
      have hown : ownSections d (x :: xs) = x :: ownSections d xs := by simp [ownSections, hx]
      have hother : otherSections d (x :: xs) = otherSections d xs := by simp [otherSections, hx]
      rw [hown] at hlasted ⊢
      rw [hother]
      obtain ⟨hlast, hlasted⟩ := List.forall_mem_cons.mp hlasted
      have hleaves : x.op.leaves x.clock x.found = none := by rw [hop]; rfl
      rw [hleaves] at hfinds
      have hkey := hkept x.key List.mem_cons_self
      have hkeys₁ : keys = (done ++ [x.key]) ++ rest' := by simpa using hkeys
      have hsame₁ : ∀ k ∉ rest', m' k = Function.update m x.key none k := by
        intro k hk
        by_cases hkx : k = x.key
        · rw [hkx, Function.update_self, hgone x.key List.mem_cons_self]
        · rw [Function.update_of_ne hkx, hsame k (by simp [hkx, hk])]
      have hkept₁ : ∀ k ∈ rest',
          Function.update m x.key none k = eraseAll (gone ++ [x.key]) m₁ k := by
        intro k hk
        by_cases hkx : k = x.key
        · rw [hkx, Function.update_self, eraseAll_eq_none (by simp)]
        · rw [Function.update_of_ne hkx, hkept k (List.mem_cons_of_mem _ hk)]
          simp [eraseAll, hkx]
      obtain ⟨m'', hserial, hcount⟩ :=
        ih hkeys₁ hroles hfinds (by simpa using hleave) hclock' hlasted hsame₁
          (fun k hk => hgone k (List.mem_cons_of_mem _ hk)) hkept₁
      refine ⟨m'', hserial, ?_⟩
      rw [List.map_cons, List.sum_cons, List.length_cons, List.take_succ_cons,
        List.append_cons, ← hcount, liveCount_concat, ← Nat.add_assoc]
      congr 2
      rw [KeySection.removed]
      have hlive : (view c.instant (eraseAll gone m₁) x.key).isSome = x.found.isSome := by
        by_cases hmem : x.key ∈ gone
        · rw [hfound, view_apply, view_apply, hkey]
          simp [eraseAll_eq_none hmem]
        · rw [eraseAll_of_notMem hmem] at hkey
          rw [view_apply, eraseAll_of_notMem hmem, ← view_apply, hfound,
            isSome_view_congr (hclock x List.mem_cons_self) hlast, view_apply, view_apply, hkey]
      rw [hlive]
    · -- an operation of another task
      rw [if_neg hx] at hleave
      obtain ⟨havoid, hleave⟩ := hleave
      have hmem : x.key ∉ rest := by simpa [hkeys] using havoid
      obtain ⟨hcall, hroles⟩ := hroles.tail_other hx
      have hown : ownSections d (x :: xs) = ownSections d xs := by simp [ownSections, hx]
      have hother : otherSections d (x :: xs) = x :: otherSections d xs := by simp [otherSections, hx]
      rw [hown] at hlasted ⊢
      rw [hother]
      have hne {k : String} (hk : k ∈ rest) : k ≠ x.key := fun h => hmem (h ▸ hk)
      let left := x.op.leaves x.clock x.found
      have hsame₁ : ∀ k ∉ rest,
          Function.update m' x.key left k = Function.update m x.key left k := by
        intro k hk
        by_cases hkx : k = x.key
        · rw [hkx, Function.update_self, Function.update_self]
        · rw [Function.update_of_ne hkx, Function.update_of_ne hkx, hsame k hk]
      obtain ⟨m'', hserial, hcount⟩ :=
        ih hkeys hroles hfinds hleave hclock' hlasted hsame₁
          (fun k hk => by rw [Function.update_of_ne (hne hk), hgone k hk])
          (fun k hk => by rw [Function.update_of_ne (hne hk), hkept k hk])
      exact ⟨m'', serial_step hcall (hsame x.key hmem) hfound hserial, hcount⟩

omit [DecidableEq ι] in
theorem Serial.append {es es' : List (OpEvent ι)} (h : Serial calls m es m₁)
    (h' : Serial calls m₁ es' m') : Serial calls m (es ++ es') m' := by
  induction es generalizing m with
  | nil =>
    cases h
    exact h'
  | cons e es ih =>
    obtain ⟨o, ho, hreply, hrest⟩ := h
    exact ⟨o, ho, hreply, ih hrest⟩

omit [DecidableEq ι] in
theorem finds_append {ys : List (KeySection ι)} :
    Finds m (xs ++ ys) m' ↔ ∃ m₁, Finds m xs m₁ ∧ Finds m₁ ys m' := by
  induction xs generalizing m with
  | nil => exact ⟨fun h => ⟨m, rfl, h⟩, by rintro ⟨_, rfl, h⟩; exact h⟩
  | cons x xs ih =>
    rw [List.cons_append, Finds, ih]
    constructor
    · rintro ⟨hx, m₁, h, h'⟩
      exact ⟨m₁, ⟨hx, h⟩, h'⟩
    · rintro ⟨m₁, ⟨hx, h⟩, h'⟩
      exact ⟨hx, m₁, h, h'⟩

omit [DecidableEq ι] in
theorem Finds.unique (h : Finds m xs m₁) (h' : Finds m xs m') : m₁ = m' := by
  induction xs generalizing m with
  | nil => exact h.trans h'.symm
  | cons x xs ih => exact ih h.2 h'.2

end Maps

section Runs
variable {ι : Type} [DecidableEq ι] {n : ℕ} {hash : String → UInt64} {calls : ι → DbCall}
  {Q : DbAct n → Clocked n → Prop} {c : Clock} {db : ShardedDatabase n} {labels : List (Label ι)}
  {cfg cfg' : DbConfig ι n} {xs : List (KeySection ι)} {s₀ : Clocked n}

omit [DecidableEq ι] in
theorem mem_sectionsAt {label : Label ι} {x : KeySection ι} (h : x ∈ sectionsAt hash cfg label) :
    (cfg.status x.task).isRunning ∧ x.clock = cfg.shared.clock ∧
      x.found = view cfg.shared.clock.instant (cfg.shared.db.toMap hash) x.key := by
  cases label with
  | act i =>
    simp only [sectionsAt] at h
    split at h
    · rename_i hi
      rw [List.mem_singleton] at h
      subst h
      exact ⟨by rw [hi]; rfl, rfl, rfl⟩
    · cases h
  | _ => cases h

/-- If all calls concern single keys, nobody holds the global lock for writing. -/
theorem not_writing_of_read (hread : ∀ i, (calls i).kind.mode = .read)
    (hreach : Reachable ((dbSystem hash calls Ticks).restrict Q) s₀ cfg) (i : ι) :
    (.global, .write) ∉ (cfg.status i).held := by
  cases hi : cfg.status i with
  | idle | done => exact List.not_mem_nil
  | running call p held =>
    obtain ⟨st, hf, rfl, rfl, -⟩ := progress_of_reachable hreach hi
    cases p with
    | ret r =>
      have hleft : st.stage = .left := hf.1
      rw [Status.held_running, hleft]
      exact List.not_mem_nil
    | act a k => exact Progress.not_writing (hread i) hf.1

/-- If all calls concern single keys, only sections have an effect. -/
theorem happens_eq_sections (hread : ∀ i, (calls i).kind.mode = .read)
    (hreach : Reachable ((dbSystem hash calls Ticks).restrict Q) s₀ cfg) (label : Label ι) :
    happens hash cfg label = (sectionsAt hash cfg label).map KeySection.event := by
  cases label with
  | act i =>
    simp only [happens, sectionsAt]
    split
    · rename_i hi
      rw [hi]
      rfl
    · rename_i hi
      obtain ⟨st, hf, -, rfl, -⟩ := progress_of_reachable hreach hi
      have hallows := hf.1
      change st.Allows hash (calls i).kind _ at hallows
      cases hallows with
      | enter =>
        rw [hread i, hi]
        rfl
    · rename_i hsection hacquire
      split
      · rename_i hi
        exact absurd hi (hsection _ _ _ _ _ _)
      · rfl
  | _ => rfl

theorem events_of_observed (hread : ∀ i, (calls i).kind.mode = .read)
    (h : Observed ((dbSystem hash calls Ticks).restrict Q) (sectionsAt hash) (.initial s₀) labels xs
      cfg) :
    Observed ((dbSystem hash calls Ticks).restrict Q) (happens hash) (.initial s₀) labels
      (xs.map KeySection.event) cfg := by
  induction h with
  | nil => exact .nil
  | snoc hseen hstep ih =>
    rw [List.map_append, ← happens_eq_sections hread ⟨_, hseen.run⟩]
    exact ih.snoc hstep

omit [DecidableEq ι] in
theorem replays_append {m m' : TimedMap String Bytes Instant} {es es' : List (AtomEvent ι)} :
    Replays m (es ++ es') m' ↔ ∃ m₁, Replays m es m₁ ∧ Replays m₁ es' m' := by
  induction es generalizing m with
  | nil => exact ⟨fun h => ⟨m, rfl, h⟩, by rintro ⟨_, rfl, h⟩; exact h⟩
  | cons e es ih =>
    rw [List.cons_append, Replays, ih]
    constructor
    · rintro ⟨he, m₁, h, h'⟩
      exact ⟨m₁, ⟨he, h⟩, h'⟩
    · rintro ⟨m₁, ⟨he, h⟩, h'⟩
      exact ⟨he, m₁, h, h'⟩

omit [DecidableEq ι] in
theorem Replays.unique {m m₁ m₂ : TimedMap String Bytes Instant} {es : List (AtomEvent ι)}
    (h : Replays m es m₁) (h' : Replays m es m₂) : m₁ = m₂ := by
  induction es generalizing m with
  | nil => exact h.trans h'.symm
  | cons e es ih => exact ih h.2 h'.2

omit [DecidableEq ι] in
theorem sectionsAt_cases (label : Label ι) :
    sectionsAt hash cfg label = [] ∨ ∃ x, sectionsAt hash cfg label = [x] := by
  cases label with
  | act i =>
    simp only [sectionsAt]
    split
    · exact .inr ⟨_, rfl⟩
    · exact .inl rfl
  | _ => exact .inl rfl

/-- The sections of a run explain it, and find what the map shows. -/
theorem finds_of_observed (hr : Routed hash db) (hread : ∀ i, (calls i).kind.mode = .read)
    (h : Observed ((dbSystem hash calls Ticks).restrict Q) (sectionsAt hash) (.initial ⟨c, db⟩)
      labels xs cfg) :
    ∃ m, OrderInv hash calls (Exact Q db) (db.toMap hash) cfg (xs.map KeySection.event) m ∧
      Finds (db.toMap hash) xs m := by
  induction h with
  | nil =>
    obtain ⟨m, hinv⟩ := @orderInv_of_observed _ _ _ _ calls Q c _ _ _ _ hr .nil
    exact ⟨m, hinv, hinv.legal⟩
  | @snoc labels xs cfg cfg' label hseen hstep ih =>
    obtain ⟨m, hinv, hfinds⟩ := ih
    have hreach : Reachable ((dbSystem hash calls Ticks).restrict Q) ⟨c, db⟩ cfg := ⟨_, hseen.run⟩
    obtain ⟨m', hinv'⟩ := hinv.of_step hreach (fun hx => keyCount_of_exact hx hreach) hstep
    rw [happens_eq_sections hread hreach, ← List.map_append] at hinv'
    refine ⟨m', hinv', ?_⟩
    obtain ⟨m₁, hm₁, hlast⟩ := replays_append.mp (List.map_append ▸ hinv'.legal)
    obtain rfl := hm₁.unique hinv.legal
    refine finds_append.mpr ⟨m₁, hfinds, ?_⟩
    rcases sectionsAt_cases label with hnone | ⟨x, hx⟩
    · rw [hnone] at hlast ⊢
      exact hlast
    · obtain ⟨-, hclock, hfound⟩ := mem_sectionsAt (hx ▸ List.mem_singleton.mpr rfl)
      rw [hx] at hlast ⊢
      have hview := (hinv.shows (not_writing_of_read hread hreach)).view_eq
      have hfound' : x.found = view x.clock.instant m₁ x.key := by
        rw [hfound, hclock, hview]
      refine ⟨hfound', ?_⟩
      rw [hfound']
      exact hlast.2

theorem eventsOf_sections (xs : List (KeySection ι)) (i : ι) :
    eventsOf (xs.map KeySection.event) i =
      (ownSections i xs).map fun x => (.key x.key x.op, .reply x.reply) := by
  rw [eventsOf, List.filter_map, List.map_map]
  rfl

theorem clock_le_of_run {cfg₁ : DbConfig ι n}
    (h : Run ((dbSystem hash calls Ticks).restrict Q) cfg₁ labels cfg) :
    cfg₁.shared.clock.instant ≤ cfg.shared.clock.instant := by
  induction h with
  | nil => exact le_rfl
  | snoc _ hstep ih =>
    refine ih.trans ?_
    cases hstep with
    | start | finish => exact le_rfl
    | act _ _ hdoes | panic _ _ hdoes =>
      obtain ⟨db, -, rfl⟩ := does_dbSystem.mp hdoes.2
      exact le_rfl
    | environment henv => exact henv.1.1

/-- A task that has begun does not begin again, and one that has ended stays as it is. -/
theorem status_of_run {cfg₁ : DbConfig ι n} {i : ι}
    (h : Run ((dbSystem hash calls Ticks).restrict Q) cfg₁ labels cfg) (hi : cfg₁.status i ≠ .idle) :
    cfg.status i ≠ .idle ∧ .start i ∉ labels ∧
      ((cfg₁.status i).isRunning = false → (cfg.status i).isRunning = false) := by
  induction h with
  | nil => exact ⟨hi, List.not_mem_nil, id⟩
  | @snoc labels cfg cfg' label hrun hstep ih =>
    obtain ⟨hne, hnot, hend⟩ := ih
    have hlabel : label ≠ .start i := by
      rintro rfl
      cases hstep with
      | start hidle => exact hne hidle
    have hnot' : Label.start i ∉ labels ++ [label] := by
      simpa [hnot] using hlabel.symm
    rcases hstep.status_cases i with hs | ⟨_, rfl, -⟩ | ⟨_, _, _, _, _, -, hr, -, -, hs⟩ |
      ⟨_, _, _, _, -, hr, -, hs⟩ | ⟨_, _, _, -, hr, hs⟩
    · rw [hs]
      exact ⟨hne, hnot', hend⟩
    · exact absurd rfl hlabel
    all_goals
      refine ⟨by rw [hs]; simp [System.finished, System.restrict, dbSystem], hnot', fun hstopped => ?_⟩
      have := hend hstopped
      rw [hr] at this
      cases this

end Runs

section Order
variable {ι : Type} [DecidableEq ι] {n : ℕ} {hash : String → UInt64} {calls : ι → DbCall}
  {Q : DbAct n → Clocked n → Prop} {c : Clock} {db : ShardedDatabase n} {labels : List (Label ι)}
  {cfg : DbConfig ι n} {xs : List (KeySection ι)} {d : ι} {keys : List String}

/-- The task `d` makes a DEL, every other one an operation on a single key. -/
structure OneDel (calls : ι → DbCall) (d : ι) (keys : List String) : Prop where
  del : calls d = .op (.del keys)
  single : ∀ i ≠ d, ∃ o key op, calls i = .op o ∧ o.keyOp = some (key, op)

theorem DbOp.keyed_of_keyOp {o : DbOp} {key : String} {op : KeyOp} (h : o.keyOp = some (key, op)) :
    o.kind.mode = .read ∧ (DbCall.op o).atoms = [.key key op] ∧
      ∀ r r', (DbCall.op o).Returns [.reply r'] r → r = .reply r' := by
  cases o <;> cases h <;> refine ⟨rfl, rfl, fun r r' hr => ?_⟩ <;> cases r <;>
    first | exact congrArg CallReply.reply hr | exact hr.elim

theorem OneDel.read (h : OneDel calls d keys) (i : ι) : (calls i).kind.mode = .read := by
  by_cases hi : i = d
  · rw [hi, h.del]
    rfl
  · obtain ⟨o, key, op, ho, hop⟩ := h.single i hi
    rw [ho]
    exact (DbOp.keyed_of_keyOp hop).1

variable {exact : Prop} {m₀ m : TimedMap String Bytes Instant}

/-- The atoms that the sections of a task stand for are a beginning of those of its call. -/
theorem OrderInv.sections (h : OrderInv hash calls exact m₀ cfg (xs.map KeySection.event) m) (i : ι) :
    (ownSections i xs).map (fun x => Atom.key x.key x.op) <+: (calls i).atoms := by
  have := (h.tasks i).atoms
  rwa [eventsOf_sections, List.map_map] at this

/-- The key and the operation of an atom on one key. -/
def Atom.work : Atom → Option (String × KeyOp)
  | .key k op => some (k, op)
  | _ => none

theorem OrderInv.roles (h : OrderInv hash calls exact m₀ cfg (xs.map KeySection.event) m)
    (hone : OneDel calls d keys) : Roles calls d keys xs := by
  constructor
  · have hown := h.sections d
    rw [hone.del] at hown
    have hpre := hown.filterMap Atom.work
    have hatoms : (DbCall.op (.del keys)).atoms = keys.map fun k => .key k .del := by
      simp [DbCall.atoms, DbOp.sections]
    rw [hatoms, List.filterMap_map, List.filterMap_map] at hpre
    simpa [Function.comp_def, Atom.work, List.filterMap_eq_map] using hpre
  · intro x hx
    obtain ⟨hmem, htask⟩ := List.mem_filter.mp hx
    have htask : x.task ≠ d := of_decide_eq_true htask
    obtain ⟨o, key, op, ho, hop⟩ := hone.single x.task htask
    refine ⟨o, ho, ?_⟩
    have hatom := (h.sections x.task).subset (List.mem_map_of_mem
      (List.mem_filter.mpr ⟨hmem, by simp⟩))
    rw [ho, (DbOp.keyed_of_keyOp hop).2.1, List.mem_singleton] at hatom
    obtain ⟨rfl, rfl⟩ := Atom.key.inj hatom
    exact hop

theorem OrderInv.once (h : OrderInv hash calls exact m₀ cfg (xs.map KeySection.event) m)
    (hone : OneDel calls d keys) : ((otherSections d xs).map KeySection.task).Nodup := by
  rw [List.nodup_iff_count_le_one]
  intro i
  by_cases hi : i = d
  · rw [List.count_eq_zero_of_not_mem]
    · exact Nat.zero_le 1
    · intro hmem
      obtain ⟨x, hx, rfl⟩ := List.mem_map.mp hmem
      exact of_decide_eq_true (List.mem_filter.mp hx).2 hi
  · obtain ⟨o, key, op, ho, hop⟩ := hone.single i hi
    have hlen := (h.sections i).length_le
    rw [ho, (DbOp.keyed_of_keyOp hop).2.1, List.length_map] at hlen
    refine le_trans ?_ hlen
    rw [List.count_eq_length_filter, List.filter_map, List.length_map, ownSections, otherSections]
    refine List.Sublist.length_le ?_
    rw [List.filter_filter]
    refine List.monotone_filter_right _ fun x hx => ?_
    simp only [Function.comp_apply, Bool.and_eq_true, beq_iff_eq] at hx
    exact decide_eq_true hx.1

theorem pairwise_insert {α : Type} {R : α → α → Prop} {as bs : List α} {x : α}
    (h : (as ++ bs).Pairwise R) (ha : ∀ a ∈ as, R a x) (hb : ∀ b ∈ bs, R x b) :
    (as ++ x :: bs).Pairwise R := by
  obtain ⟨has, hbs, hcross⟩ := List.pairwise_append.mp h
  refine List.pairwise_append.mpr ⟨has, List.pairwise_cons.mpr ⟨hb, hbs⟩, fun a hmem b hb' => ?_⟩
  rcases List.mem_cons.mp hb' with rfl | hb'
  · exact ha a hmem
  · exact hcross a hmem b hb'

/-- The order in which the DEL takes effect at the moment between `before` and `after`. -/
def delOrder (d : ι) (c : Clock) (m : TimedMap String Bytes Instant) (keys : List String)
    (before after : List (KeySection ι)) : List (OpEvent ι) :=
  (otherSections d before).map KeySection.opEvent ++
    ⟨d, c, .count (.ok (liveCount c.instant m keys))⟩ :: (otherSections d after).map KeySection.opEvent

theorem otherSections_append (before after : List (KeySection ι)) :
    otherSections d (before ++ after) = otherSections d before ++ otherSections d after :=
  List.filter_append ..

theorem ownSections_append (before after : List (KeySection ι)) :
    ownSections d (before ++ after) = ownSections d before ++ ownSections d after :=
  List.filter_append ..

theorem Roles.before {rest : List String} {before after : List (KeySection ι)}
    (h : Roles calls d rest (before ++ after)) : Roles calls d rest before := by
  refine ⟨?_, fun x hx => h.others x ?_⟩
  · have hown := h.own
    rw [ownSections_append, List.map_append] at hown
    exact (List.prefix_append _ _).trans hown
  · rw [otherSections_append]
    exact List.mem_append_left _ hx

theorem Roles.after {done rest : List String} {before after : List (KeySection ι)}
    (h : Roles calls d (done ++ rest) (before ++ after))
    (hlen : done.length = (ownSections d before).length) : Roles calls d rest after := by
  refine ⟨?_, fun x hx => h.others x ?_⟩
  · have hown := h.own
    rw [ownSections_append, List.map_append, List.map_append] at hown
    obtain ⟨more, hmore⟩ := hown
    rw [List.append_assoc] at hmore
    obtain ⟨-, hrest⟩ := List.append_inj hmore (by simp [hlen])
    exact ⟨more, hrest⟩
  · rw [otherSections_append]
    exact List.mem_append_right _ hx

/-- On the abstract map the DEL may take effect at the moment, and its reply is that of its
deletions. -/
theorem serial_of_apart {m₁ m₂ shown : TimedMap String Bytes Instant}
    {before after : List (KeySection ι)} (hone : OneDel calls d keys)
    (hroles : Roles calls d keys (before ++ after)) (hfinds : Finds m₀ before m₁)
    (hfinds' : Finds m₁ after m₂) (hshown : view c.instant shown = view c.instant m₁)
    (hapart : Apart keys d before c shown after) (hbefore : ∀ x ∈ before, x.clock.instant ≤ c.instant)
    (hafter : ∀ x ∈ after, c.instant ≤ x.clock.instant) :
    ∃ m m', Serial calls m₀ (delOrder d c m keys before after) m' ∧
      ((ownSections d (before ++ after)).length = keys.length →
        ((ownSections d (before ++ after)).map KeySection.removed).sum =
          liveCount c.instant m keys) := by
  have hgone₀ : ∀ k ∈ ([] : List String), m₀ k = none := fun _ hk => absurd hk List.not_mem_nil
  obtain ⟨done, rest, m, rfl, hlen, hserial, hsame, hgone, hcount⟩ :=
    serial_before (List.nil_append keys).symm hroles.before hfinds hapart.deleted hbefore hapart.lasts
      (fun k _ => Eq.refl (m₀ k)) hgone₀
  rw [List.length_nil, Nat.zero_add] at hlen
  rw [show liveCount c.instant m₀ [] = 0 from rfl, Nat.zero_add] at hcount
  -- what the map of the moment is like without the keys of the DEL
  have herase : eraseAll done m = m₁ := by
    funext k
    by_cases hk : k ∈ done
    · rw [eraseAll_eq_none hk, hgone k hk]
    · rw [eraseAll_of_notMem hk, hsame k hk]
  have hnil : eraseAll [] m₁ = m₁ := funext fun k => by simp [eraseAll]
  have hsame' : ∀ k ∉ rest, eraseAll (done ++ rest) m k = m₁ k := by
    intro k hk
    by_cases hd : k ∈ done
    · rw [eraseAll_eq_none (by simp [hd]), hgone k hd]
    · rw [eraseAll_of_notMem (by simp [hd, hk]), hsame k hd]
  obtain ⟨m', hserial', hcount'⟩ := serial_after (c := c) rfl (hroles.after hlen) hfinds'
    (hlen ▸ hapart.pending) hafter (fun x hx => hshown ▸ hapart.lasted x hx) hsame'
    (fun k hk => eraseAll_eq_none (by simp [hk])) (fun k _ => by rw [hnil])
  refine ⟨m, m', hserial.append ⟨_, hone.del, rfl, hserial'⟩, fun hall => ?_⟩
  rw [show liveCount c.instant m₁ [] = 0 from rfl, Nat.zero_add, List.nil_append] at hcount'
  rw [ownSections_append, List.length_append, List.length_append] at hall
  rw [ownSections_append, List.map_append, List.sum_append, ← hcount, hcount', liveCount_append,
    herase, List.take_of_length_le (by omega)]

end Order

section Moment
variable {ι : Type} [DecidableEq ι] {n : ℕ} {hash : String → UInt64} {calls : ι → DbCall}
  {Q : DbAct n → Clocked n → Prop} {c : Clock} {db : ShardedDatabase n}
  {labels labels' : List (Label ι)} {cfg₁ cfg : DbConfig ι n} {before after : List (KeySection ι)}
  {d : ι} {keys : List String}

/-- The DEL returns the number of keys that its deletions removed. -/
theorem OrderInv.del_returns {exact : Prop} {m₀ m : TimedMap String Bytes Instant}
    {xs : List (KeySection ι)} (h : OrderInv hash calls exact m₀ cfg (xs.map KeySection.event) m)
    (hone : OneDel calls d keys) {r : CallReply} (hd : cfg.status d = .done (some r)) :
    (ownSections d xs).length = keys.length ∧
      r = .reply (.count (.ok ((ownSections d xs).map KeySection.removed).sum)) := by
  have htask := h.tasks d
  rw [hd] at htask
  obtain ⟨hatoms, hreturns⟩ := htask.2 r rfl
  rw [eventsOf_sections, List.map_map] at hatoms hreturns
  rw [hone.del] at hatoms hreturns
  rw [DbCall.returnsIf_op] at hreturns
  constructor
  · have := congrArg List.length hatoms
    simpa [DbCall.atoms, DbOp.sections] using this
  · rcases r with reply | _ | _ | _ <;> try exact hreturns.elim
    obtain ⟨counts, hcounts, rfl⟩ := hreturns
    have hremoved : (ownSections d xs).map (Prod.snd ∘ fun x => (Atom.key x.key x.op,
        AtomReply.reply x.reply)) = ((ownSections d xs).map KeySection.removed).map
        fun k => .reply (.count (.ok k)) := by
      rw [List.map_map]
      refine List.map_congr_left fun x hx => ?_
      have hmem := (h.roles hone).own.subset (List.mem_map_of_mem hx)
      obtain ⟨k, -, hk⟩ := List.mem_map.mp hmem
      have hop : x.op = .del := (Prod.mk.inj hk).2.symm
      obtain ⟨task, clock, key, op, found⟩ := x
      cases hop
      rfl
    have hinj : Function.Injective fun k : ℕ => AtomReply.reply (.count (.ok k)) := by
      intro a b hab
      simpa using hab
    rw [List.map_injective_iff.mpr hinj (hremoved.symm.trans hcounts)]

/-- An operation on a single key returns what its one section replies. -/
theorem OrderInv.single_returns {exact : Prop} {m₀ m : TimedMap String Bytes Instant}
    {xs : List (KeySection ι)} (h : OrderInv hash calls exact m₀ cfg (xs.map KeySection.event) m)
    (hone : OneDel calls d keys) {i : ι} (hid : i ≠ d) {r : CallReply}
    (hi : cfg.status i = .done (some r)) : ∃ x ∈ xs, x.task = i ∧ r = .reply x.reply := by
  obtain ⟨o, key, op, ho, hop⟩ := hone.single i hid
  obtain ⟨-, hsingle, hresult⟩ := DbOp.keyed_of_keyOp hop
  have htask := h.tasks i
  rw [hi] at htask
  obtain ⟨hatoms, hreturns⟩ := htask.2 r rfl
  rw [eventsOf_sections, List.map_map] at hatoms hreturns
  rw [ho] at hatoms hreturns
  rw [hsingle] at hatoms
  obtain ⟨x, hx, -⟩ := List.map_eq_singleton_iff.mp hatoms
  rw [hx] at hreturns
  have hmem : x ∈ ownSections i xs := hx ▸ List.mem_singleton.mpr rfl
  obtain ⟨hxs, htask⟩ := List.mem_filter.mp hmem
  exact ⟨x, hxs, of_decide_eq_true htask, hresult r x.reply (DbCall.returnsIf_op.mp hreturns)⟩

/-- The DEL did not end before an operation that took effect before the moment began. -/
theorem not_precedes_before (hr : Routed hash db) (hone : OneDel calls d keys)
    (h₁ : Observed ((dbSystem hash calls Ticks).restrict Q) (sectionsAt hash) (.initial ⟨c, db⟩)
      labels before cfg₁) (hrunning : (cfg₁.status d).isRunning)
    (h₂ : Observed ((dbSystem hash calls Ticks).restrict Q) (sectionsAt hash) cfg₁ labels' after cfg)
    {x : KeySection ι} (hx : x ∈ before) : ¬ Precedes (labels ++ labels') d x.task := by
  rintro ⟨first, last, hsplit, hended, hstart⟩
  obtain ⟨m, hinv, -⟩ := finds_of_observed hr hone.read h₁
  have hbegun : cfg₁.status x.task ≠ .idle := by
    intro hidle
    have htask := hinv.tasks x.task
    rw [hidle] at htask
    exact task_ne_of_eventsOf_nil htask (List.mem_map_of_mem hx) rfl
  rcases List.append_eq_append_iff.mp hsplit with ⟨more, rfl, rfl⟩ | ⟨more, rfl, rfl⟩
  · exact (status_of_run h₂.run hbegun).2.1 (List.mem_append_right _ hstart)
  · have hdone := done_of_ended h₁.run
      (hended.imp (List.mem_append_left _) (List.mem_append_left _))
    rw [hrunning] at hdone
    cases hdone.1

/-- An operation that took effect after the moment did not end before the DEL began. -/
theorem not_precedes_after
    (h₁ : Observed ((dbSystem hash calls Ticks).restrict Q) (sectionsAt hash) (.initial ⟨c, db⟩)
      labels before cfg₁) (hrunning : (cfg₁.status d).isRunning)
    (h₂ : Observed ((dbSystem hash calls Ticks).restrict Q) (sectionsAt hash) cfg₁ labels' after cfg)
    {x : KeySection ι} (hx : x ∈ after) : ¬ Precedes (labels ++ labels') x.task d := by
  rintro ⟨first, last, hsplit, hended, hstart⟩
  have hbegun : cfg₁.status d ≠ .idle := by
    intro hidle
    rw [hidle] at hrunning
    cases hrunning
  rcases List.append_eq_append_iff.mp hsplit with ⟨more, rfl, rfl⟩ | ⟨more, rfl, rfl⟩
  · exact (status_of_run h₂.run hbegun).2.1 (List.mem_append_right _ hstart)
  · have hdone := done_of_ended h₁.run
      (hended.imp (List.mem_append_left _) (List.mem_append_left _))
    obtain ⟨first', label, last', cfg', -, hrun, hmem⟩ := h₂.mem hx
    have hstopped := (status_of_run hrun hdone.2).2.2 hdone.1
    rw [(mem_sectionsAt hmem).1] at hstopped
    cases hstopped

/-- If there is a moment of its run around which its keys are left alone, a DEL is atomic. -/
theorem serialOrder_of_apart (hr : Routed hash db) (hone : OneDel calls d keys)
    (h₁ : Observed ((dbSystem hash calls Ticks).restrict Q) (sectionsAt hash) (.initial ⟨c, db⟩)
      labels before cfg₁) (hrunning : (cfg₁.status d).isRunning)
    (h₂ : Observed ((dbSystem hash calls Ticks).restrict Q) (sectionsAt hash) cfg₁ labels' after cfg)
    (hapart : Apart keys d before cfg₁.shared.clock (cfg₁.shared.db.toMap hash) after) :
    ∃ order, SerialOrder ((dbSystem hash calls Ticks).restrict Q) calls (db.toMap hash)
      (.initial ⟨c, db⟩) (labels ++ labels') cfg order := by
  have h := h₁.append h₂
  obtain ⟨m₁, hinv₁, hfinds₁⟩ := finds_of_observed hr hone.read h₁
  obtain ⟨m₂, hinv₂, hfinds₂⟩ := finds_of_observed hr hone.read h
  obtain ⟨m₁', hfinds₁', hfinds₂⟩ := finds_append.mp hfinds₂
  obtain rfl := hfinds₁'.unique hfinds₁
  have hshown := (hinv₁.shows (not_writing_of_read hone.read ⟨_, h₁.run⟩)).view_eq
  have hbefore : ∀ x ∈ before, x.clock.instant ≤ cfg₁.shared.clock.instant := fun x hx =>
    hinv₁.past x.event (List.mem_map_of_mem hx)
  have hafter : ∀ x ∈ after, cfg₁.shared.clock.instant ≤ x.clock.instant := by
    intro x hx
    obtain ⟨first, label, last, cfg', -, hrun, hmem⟩ := h₂.mem hx
    rw [(mem_sectionsAt hmem).2.1]
    exact clock_le_of_run hrun
  obtain ⟨m, m', hserial, hsum⟩ := serial_of_apart hone (hinv₂.roles hone) hfinds₁ hfinds₂ hshown
    hapart hbefore hafter
  have hothers {x : KeySection ι} {xs : List (KeySection ι)} (hx : x ∈ otherSections d xs) :
      x ∈ xs := List.mem_of_mem_filter hx
  have hpairs {R : AtomEvent ι → AtomEvent ι → Prop}
      (hR : ((before ++ after).map KeySection.event).Pairwise R) :
      (otherSections d before ++ otherSections d after).Pairwise fun x y => R x.event y.event := by
    rw [← otherSections_append]
    exact (List.pairwise_map.mp hR).sublist List.filter_sublist
  refine ⟨delOrder d cfg₁.shared.clock m keys before after, ⟨m', hserial⟩, ?_, ?_, fun i r hi => ?_,
    fun e he => ?_, fun i j hprec => ?_⟩
  · -- the clocks do not go back
    refine pairwise_insert ?_ ?_ ?_
    · rw [← List.map_append, List.pairwise_map]
      exact hpairs hinv₂.clocks
    · rw [List.forall_mem_map]
      exact fun x hx => hbefore x (hothers hx)
    · rw [List.forall_mem_map]
      exact fun x hx => hafter x (hothers hx)
  · -- each task takes effect once
    have honce := hinv₂.once hone
    rw [otherSections_append, List.map_append] at honce
    rw [delOrder, List.map_append, List.map_cons, List.map_map, List.map_map]
    have hne {x : KeySection ι} {xs : List (KeySection ι)} (hx : x ∈ otherSections d xs) :
        x.task ≠ d := of_decide_eq_true (List.mem_filter.mp hx).2
    refine pairwise_insert honce ?_ ?_
    · rw [List.forall_mem_map]
      exact fun x hx => hne hx
    · rw [List.forall_mem_map]
      exact fun x hx => (hne hx).symm
  · -- each task returns what its operation returns there
    by_cases hid : i = d
    · subst hid
      refine ⟨⟨i, _, _⟩, List.mem_append_right _ List.mem_cons_self, rfl, ?_⟩
      obtain ⟨hlen, hr⟩ := hinv₂.del_returns hone hi
      rw [hr, hsum hlen]
    · obtain ⟨x, hx, rfl, hr⟩ := hinv₂.single_returns hone hid hi
      refine ⟨x.opEvent, ?_, rfl, hr⟩
      rcases List.mem_append.mp hx with hx | hx
      · exact List.mem_append_left _ (List.mem_map_of_mem (by simp [otherSections, hx, hid]))
      · refine List.mem_append_right _ (List.mem_cons_of_mem _ (List.mem_map_of_mem ?_))
        simp [otherSections, hx, hid]
  · -- each operation takes effect while its task runs
    have hmoment {x : KeySection ι} (hx : x ∈ before ++ after) :
        ∃ first last cfg', labels ++ labels' = first ++ last ∧
          Run ((dbSystem hash calls Ticks).restrict Q) (.initial ⟨c, db⟩) first cfg' ∧
          (cfg'.status x.opEvent.task).isRunning ∧ x.opEvent.clock = cfg'.shared.clock := by
      obtain ⟨first, label, last, cfg', hsplit, hrun, hmem⟩ := h.mem hx
      obtain ⟨hrunning, hclock, -⟩ := mem_sectionsAt hmem
      exact ⟨first, label :: last, cfg', hsplit, hrun, hrunning, hclock⟩
    rcases List.mem_append.mp he with he | he
    · obtain ⟨x, hx, rfl⟩ := List.mem_map.mp he
      exact hmoment (List.mem_append_left _ (hothers hx))
    · rcases List.mem_cons.mp he with rfl | he
      · exact ⟨labels, labels', cfg₁, rfl, h₁.run, hrunning, rfl⟩
      · obtain ⟨x, hx, rfl⟩ := List.mem_map.mp he
        exact hmoment (List.mem_append_right _ (hothers hx))
  · -- a task that ended before another began takes effect before it
    refine pairwise_insert ?_ ?_ ?_
    · rw [← List.map_append, List.pairwise_map]
      exact hpairs (realTime_of_observed hr (events_of_observed hone.read h) hprec)
    · rw [List.forall_mem_map]
      rintro x hx ⟨rfl, rfl⟩
      exact not_precedes_before hr hone h₁ hrunning h₂ (hothers hx) hprec
    · rw [List.forall_mem_map]
      rintro x hx ⟨rfl, rfl⟩
      exact not_precedes_after h₁ hrunning h₂ (hothers hx) hprec

end Moment

section Samples

/-- A DEL of two keys, and a GET of each of them. -/
def delCalls : Fin 3 → DbCall := ![.op (.del ["a", "b"]), .op (.get "a"), .op (.get "b")]

/-- A store with the two keys. -/
def delStore : ShardedDatabase 0 :=
  ⟨fun _ => AList.insert "b" ⟨[2], none⟩ (AList.insert "a" ⟨[1], none⟩ ∅), 2⟩

def delSystem : System (Fin 3) DbCall (DbAct 0) DbAct.Answer (DbLock 0) LockMode (Clocked 0)
    CallReply := (dbSystem (fun _ => 0) delCalls Ticks).restrict fun _ _ => True

instance : DecidableRel delSystem.compatible :=
  inferInstanceAs (DecidableRel LockMode.Compatible)

def delInit : DbConfig (Fin 3) 0 := .initial ⟨⟨0, 0⟩, delStore⟩

theorem oneDel_delCalls : OneDel delCalls 0 ["a", "b"] := by
  refine ⟨rfl, fun i hi => ?_⟩
  match i, hi with
  | 0, hi => exact absurd rfl hi
  | 1, _ => exact ⟨.get "a", "a", .get, rfl, rfl⟩
  | 2, _ => exact ⟨.get "b", "b", .get, rfl, rfl⟩

theorem routed_delStore : Routed (fun _ => 0) delStore :=
  fun i key _ => Fin.ext (by omega)

/-- A task begins, and makes some actions. -/
def delMoves (i : Fin 3) (steps : ℕ) : List (Move (Fin 3) DbCall) :=
  .start i (delCalls i) :: List.replicate steps (.go i)

def delWatch (cfg : DbConfig (Fin 3) 0) (moves : List (Move (Fin 3) DbCall)) :=
  watch delSystem Clocked.handler (sectionsAt fun _ => 0) cfg moves

theorem observed_of_delWatch {cfg cfg' : DbConfig (Fin 3) 0} {moves : List (Move (Fin 3) DbCall)}
    {labels : List (Label (Fin 3))} {seen : List (KeySection (Fin 3))}
    (hstarts : ∀ i c, Move.start i c ∈ moves → c = delCalls i)
    (h : delWatch cfg moves = some (labels, seen, cfg')) :
    Observed delSystem (sectionsAt fun _ => 0) cfg labels seen cfg' :=
  observed_of_watch (h := Clocked.handler) (fun _ _ _ _ _ h => ⟨trivial, Option.some.inj h⟩)
    hstarts h

/-- The GET of the second key runs before the moment, that of the first key after it. -/
def apartBefore : List (Move (Fin 3) DbCall) := delMoves Three.first 5 ++ delMoves Three.third 8

def apartAfter : List (Move (Fin 3) DbCall) :=
  delMoves Three.second 8 ++ List.replicate 7 (.go Three.first)

theorem apart_facts : ((delWatch delInit apartBefore).any fun (_, before, cfg₁) =>
    (delWatch cfg₁ apartAfter).any fun (_, after, cfg) => (cfg₁.status 0).isRunning &&
      !(cfg.status 0).isRunning && before.length == 2 && after.length == 2 &&
      decide (LeavesAlone 0 ["a", "b"].take 0 before) &&
      decide (LeavesAlone 0 ["a", "b"].drop (ownSections 0 before).length after) &&
      (ownSections 0 before).all (fun x => x.found.all (alive cfg₁.shared.clock.instant)) &&
      (ownSections 0 after).all fun x => (view cfg₁.shared.clock.instant
        (cfg₁.shared.db.toMap fun _ => 0) x.key).all (alive x.clock.instant)) = true := by
  decide +kernel

theorem starts_delMoves {i j : Fin 3} {c : DbCall} {steps : ℕ}
    (h : Move.start i c ∈ delMoves j steps) : c = delCalls i := by
  rcases List.mem_cons.mp h with h | h
  · cases h
    rfl
  · cases (List.mem_replicate.mp h).2

theorem not_starts_replicate {i j : Fin 3} {c : DbCall} {steps : ℕ} :
    Move.start i c ∉ List.replicate steps (.go j) := by
  intro h
  cases (List.mem_replicate.mp h).2

theorem serialOrder_of_apart_sample : ∃ labels cfg order, (cfg.status 0).isRunning = false ∧
    SerialOrder delSystem delCalls (delStore.toMap fun _ => 0) delInit labels cfg order := by
  obtain ⟨⟨labels, before, cfg₁⟩, hfirst, hfacts⟩ := (Option.any_eq_true ..).mp apart_facts
  obtain ⟨⟨labels', after, cfg⟩, hsecond, hfacts⟩ := (Option.any_eq_true ..).mp hfacts
  simp only [Bool.and_eq_true, Bool.not_eq_true', decide_eq_true_eq, List.all_eq_true,
    Option.all_eq_true] at hfacts
  obtain ⟨⟨⟨⟨⟨⟨⟨hrunning, hdone⟩, -⟩, -⟩, hdeleted⟩, hpending⟩, hlasts⟩, hlasted⟩ := hfacts
  have h₁ := observed_of_delWatch (fun i c hm => (List.mem_append.mp hm).elim starts_delMoves
    starts_delMoves) hfirst
  have h₂ := observed_of_delWatch (fun i c hm => (List.mem_append.mp hm).elim starts_delMoves
    fun hm => absurd hm not_starts_replicate) hsecond
  obtain ⟨order, horder⟩ := serialOrder_of_apart routed_delStore oneDel_delCalls h₁ hrunning h₂
    ⟨hdeleted, hpending, hlasts, hlasted⟩
  exact ⟨_, cfg, order, hdone, horder⟩

/-- Both GETs run between the two deletions, that of the first key before that of the second. -/
def tornMoves : List (Move (Fin 3) DbCall) :=
  delMoves Three.first 5 ++ delMoves Three.second 8 ++ delMoves Three.third 8 ++
    List.replicate 7 (.go Three.first)

def DbStatus.value : DbStatus 0 → Option (Option Bytes)
  | .done (some (.reply (.value (.ok value)))) => some value
  | _ => none

def DbStatus.count : DbStatus 0 → Option ℕ
  | .done (some (.reply (.count (.ok k)))) => some k
  | _ => none

theorem torn_facts : ((delWatch delInit tornMoves).any fun (labels, _, cfg) =>
    DbStatus.count (cfg.status 0) == some 2 && DbStatus.value (cfg.status 1) == some none &&
      DbStatus.value (cfg.status 2) == some (some [2]) &&
      decide (.finish 1 ∈ labels.take 15) && decide (.start 2 ∈ labels.drop 15)) = true := by
  decide +kernel

theorem DbStatus.eq_of_value {status : DbStatus 0} {value : Option Bytes}
    (h : DbStatus.value status = some value) : status = .done (some (.reply (.value (.ok value)))) := by
  unfold DbStatus.value at h
  split at h
  · cases h
    rfl
  · cases h

theorem DbStatus.eq_of_count {status : DbStatus 0} {k : ℕ} (h : DbStatus.count status = some k) :
    status = .done (some (.reply (.count (.ok k)))) := by
  unfold DbStatus.count at h
  split at h
  · cases h
    rfl
  · cases h

/-- No order of the three operations in which the first GET precedes the second explains replies of
which the first sees the DEL and the second does not. -/
theorem not_serial_torn {es : List (OpEvent (Fin 3))} {m : TimedMap String Bytes Instant}
    (htasks : es.map OpEvent.task = [0, 1, 2] ∨ es.map OpEvent.task = [1, 0, 2] ∨
      es.map OpEvent.task = [1, 2, 0])
    (hfirst : ∃ e ∈ es, e.task = 1 ∧ e.reply = .value (.ok none))
    (hsecond : ∃ e ∈ es, e.task = 2 ∧ e.reply = .value (.ok (some [2]))) :
    ¬ Serial delCalls (delStore.toMap fun _ => 0) es m := by
  intro hserial
  obtain ⟨x, y, z, rfl⟩ : ∃ x y z, es = [x, y, z] := by
    refine List.length_eq_three.mp ?_
    rw [← List.length_map (f := OpEvent.task)]
    rcases htasks with h | h | h <;> rw [h] <;> rfl
  obtain ⟨o, ho, hx, o', ho', hy, o'', ho'', hz, -⟩ := hserial
  obtain ⟨e, he, hetask, hereply⟩ := hfirst
  obtain ⟨f, hf, hftask, hfreply⟩ := hsecond
  simp only [List.map_cons, List.map_nil, List.cons.injEq, and_true] at htasks
  simp only [List.mem_cons, List.not_mem_nil, or_false] at he hf
  -- a GET of the first key that comes first finds it
  have hfound (hx₁ : x.task = 1) (hex : e = x) : False := by
    subst hex
    rw [hx₁] at ho
    obtain rfl : DbOp.get "a" = o := DbCall.op.inj ho
    rw [hereply] at hx
    have : DbReply.value (.ok none) = .value (.ok (some [1])) := hx
    cases this
  rcases htasks with ⟨hx₀, hy₁, hz₂⟩ | ⟨hx₁, hy₀, hz₂⟩ | ⟨hx₁, hy₂, hz₀⟩
  · -- the DEL comes first: the second GET does not find its key
    obtain rfl : f = z := by
      rcases hf with rfl | rfl | rfl
      · exact absurd (hftask.symm.trans hx₀) (by decide)
      · exact absurd (hftask.symm.trans hy₁) (by decide)
      · rfl
    rw [hx₀] at ho
    rw [hy₁] at ho'
    rw [hz₂] at ho''
    obtain rfl : DbOp.del ["a", "b"] = o := DbCall.op.inj ho
    obtain rfl : DbOp.get "a" = o' := DbCall.op.inj ho'
    obtain rfl : DbOp.get "b" = o'' := DbCall.op.inj ho''
    rw [hfreply] at hz
    have : DbReply.value (.ok (some [2])) = .value (.ok none) := hz
    cases this
  · refine hfound hx₁ ?_
    rcases he with rfl | rfl | rfl
    · rfl
    · exact absurd (hetask.symm.trans hy₀) (by decide)
    · exact absurd (hetask.symm.trans hz₂) (by decide)
  · refine hfound hx₁ ?_
    rcases he with rfl | rfl | rfl
    · rfl
    · exact absurd (hetask.symm.trans hy₂) (by decide)
    · exact absurd (hetask.symm.trans hz₀) (by decide)

theorem tasks_of_pairwise {tasks : List (Fin 3)} (honce : tasks.Nodup)
    (hpairs : tasks.Pairwise fun a b => ¬ (a = 2 ∧ b = 1)) (hall : ∀ i, i ∈ tasks) :
    tasks = [0, 1, 2] ∨ tasks = [1, 0, 2] ∨ tasks = [1, 2, 0] := by
  have hthree : ∀ i : Fin 3, i ∈ [0, 1, 2] := by decide
  have hperm : tasks.Perm [0, 1, 2] :=
    (List.perm_ext_iff_of_nodup honce (by decide)).mpr fun i => ⟨fun _ => hthree i, fun _ => hall i⟩
  have hlen := hperm.length_eq
  obtain ⟨a, b, c, rfl⟩ := List.length_eq_three.mp hlen
  clear hperm hlen hall
  revert a b c
  decide

/-- Another client may see the first key of a DEL gone, and after that the second still there. -/
theorem not_del_atomic : ¬ ∀ (ι : Type) (_ : DecidableEq ι) (n : ℕ) (hash : String → UInt64)
    (calls : ι → DbCall) (Q : DbAct n → Clocked n → Prop) (d : ι) (keys : List String) (c : Clock)
    (db : ShardedDatabase n) (labels : List (Label ι)) (cfg : DbConfig ι n),
    OneDel calls d keys → Routed hash db →
    Run ((dbSystem hash calls Ticks).restrict Q) (.initial ⟨c, db⟩) labels cfg →
    ∃ order, SerialOrder ((dbSystem hash calls Ticks).restrict Q) calls (db.toMap hash)
      (.initial ⟨c, db⟩) labels cfg order := by
  intro hall
  obtain ⟨⟨labels, seen, cfg⟩, htorn, hfacts⟩ := (Option.any_eq_true ..).mp torn_facts
  simp only [Bool.and_eq_true, beq_iff_eq, decide_eq_true_eq] at hfacts
  obtain ⟨⟨⟨⟨hcount, hfirst⟩, hsecond⟩, hfinish⟩, hstart⟩ := hfacts
  have hrun := observed_of_delWatch (fun i c hm => by
    rcases List.mem_append.mp hm with hm | hm
    · rcases List.mem_append.mp hm with hm | hm
      · exact (List.mem_append.mp hm).elim starts_delMoves starts_delMoves
      · exact starts_delMoves hm
    · exact absurd hm not_starts_replicate) htorn
  obtain ⟨order, ⟨m, hserial⟩, -, honce, hresults, -, hreal⟩ := hall (Fin 3) _ 0 _ delCalls
    (fun _ _ => True) 0 ["a", "b"] _ _ labels cfg oneDel_delCalls routed_delStore hrun.run
  obtain ⟨e₀, he₀, ht₀, -⟩ := hresults 0 _ (DbStatus.eq_of_count hcount)
  obtain ⟨e₁, he₁, ht₁, hr₁⟩ := hresults 1 _ (DbStatus.eq_of_value hfirst)
  obtain ⟨e₂, he₂, ht₂, hr₂⟩ := hresults 2 _ (DbStatus.eq_of_value hsecond)
  have hprec : Precedes labels 1 2 :=
    ⟨labels.take 15, labels.drop 15, (List.take_append_drop 15 labels).symm, .inl hfinish, hstart⟩
  have hpairs : (order.map OpEvent.task).Pairwise fun a b => ¬ (a = 2 ∧ b = 1) :=
    List.pairwise_map.mpr (hreal 1 2 hprec)
  refine not_serial_torn (tasks_of_pairwise honce hpairs ?_)
    ⟨e₁, he₁, ht₁, (CallReply.reply.inj hr₁).symm⟩ ⟨e₂, he₂, ht₂, (CallReply.reply.inj hr₂).symm⟩ hserial
  intro i
  match i with
  | 0 => exact ht₀ ▸ List.mem_map_of_mem he₀
  | 1 => exact ht₁ ▸ List.mem_map_of_mem he₁
  | 2 => exact ht₂ ▸ List.mem_map_of_mem he₂

end Samples

end RustKV

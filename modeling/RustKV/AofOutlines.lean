import RustKV.AofSnapshots

/-! What a log is worth at a later time. The outline of a map keeps its keys and values and which
of them have a deadline. Where every deadline lies far enough ahead, an operation does to the
outline what its record does to it at a replay, and so does a snapshot. -/
namespace RustKV
open Decimal TimedMap

/-- Keys, values, and which keys have a deadline. -/
abbrev Outline := String → Option (Bytes × Bool)

section Distances
variable {c T : Clock} {d : Instant} {ts : UInt64} {remaining : Duration}

/-- A deadline that fits and lies more than two milliseconds ahead. -/
structure Distant (T : Clock) (d : Instant) : Prop extends DeadlineFits T d where
  far : T.instant + 2 * 10^6 < d

theorem DeadlineFits.of_advances (hT : c.Advances T) (h : DeadlineFits T d) : DeadlineFits c d := by
  obtain ⟨δ, rfl⟩ := hT
  obtain ⟨hahead, hunix, hinstant⟩ := h
  dsimp only at hahead hunix
  refine ⟨?_, ?_, hinstant⟩ <;> linarith

theorem Distant.lt_limit (h : Distant T d) : d < instantLimit := by
  have hinstant := h.instant
  linarith

/-- A timestamp that sets a distant deadline lies ahead, and its deadline fits, also later. -/
theorem until_of_distant (h0 : 0 ≤ c.unix) (hT : c.Advances T)
    (hrem : durationUntilUnixMs c ts = some remaining) (h : Distant T (c.after remaining)) :
    T.ms < ts.toNat ∧ ∀ later, durationUntilUnixMs T ts = some later →
      T.after later < instantLimit := by
  have h0T : 0 ≤ T.unix := h0.trans hT.unix_le
  have hfar := h.far
  have hlimit := h.instant
  have hc := c.ms_bounds h0
  have hms := T.ms_bounds h0T
  rw [durationUntilUnixMs_eq c h0] at hrem
  split_ifs at hrem with hts
  cases hrem
  rw [Clock.after] at hfar hlimit
  push_cast [Nat.cast_sub (not_le.mp hts).le] at hfar hlimit
  have hle := hT.instant_le
  obtain ⟨δ, hTeq⟩ := hT
  have hinstant : T.instant = c.instant + δ := by rw [hTeq]
  have hunix : T.unix = c.unix + δ := by rw [hTeq]
  have hlt : T.ms < ts.toNat := by
    have hcast : (T.ms : ℤ) < ts.toNat := by linarith
    exact_mod_cast hcast
  refine ⟨hlt, fun later hlater => ?_⟩
  rw [durationUntilUnixMs_eq T h0T, if_neg (not_le.mpr hlt)] at hlater
  cases hlater
  rw [Clock.after]
  push_cast [Nat.cast_sub hlt.le]
  linarith

theorem until_none_of_advances (h0 : 0 ≤ c.unix) (hT : c.Advances T)
    (hrem : durationUntilUnixMs c ts = none) : ts.toNat ≤ T.ms :=
  ((durationUntilUnixMs_eq_none_iff c h0 ts).mp hrem).trans hT.ms_le

end Distances

section Operations
variable {c T : Clock}

namespace KeyOp

/-- What an operation does to the outline under its key; a timestamp that is reached at the time
`T` leaves nothing. -/
def outline (T : Clock) : KeyOp → Option (Bytes × Bool) → Option (Bytes × Bool)
  | .set value duration, _ => some (value, duration.isSome)
  | .setAtMs value ts, _ => if ts.toNat ≤ T.ms then none else some (value, true)
  | .del, _ => none
  | .expire _, o => o.map fun p => (p.1, true)
  | .expireAtMs ts, o => if ts.toNat ≤ T.ms then none else o.map fun p => (p.1, true)
  | .get, o | .exists', o | .ttl, o => o

/-- An operation that sets no deadline but distant ones. -/
theorem outline_leaves (h0 : 0 ≤ c.unix) (hT : c.Advances T) (op : KeyOp) (live : Option Entry)
    (hd : ∀ d ∈ op.deadline c live, Distant T d) :
    (op.leaves c live).map Timed.outline = op.outline T (live.map Timed.outline) := by
  cases op with
  | set value duration => cases duration <;> rfl
  | del | get | exists' | ttl => rfl
  | expire secs => cases live <;> rfl
  | setAtMs value ts =>
    rw [leaves, outline]
    cases hrem : durationUntilUnixMs c ts with
    | none =>
      rw [if_pos (until_none_of_advances h0 hT hrem)]
      rfl
    | some remaining =>
      have hlt := (until_of_distant h0 hT hrem (hd _ (by simp [deadline, hrem]))).1
      rw [if_neg (not_le.mpr hlt)]
      rfl
  | expireAtMs ts =>
    rw [leaves, outline]
    cases live with
    | none => split_ifs <;> rfl
    | some entry =>
      cases hrem : durationUntilUnixMs c ts with
      | none =>
        rw [if_pos (until_none_of_advances h0 hT hrem), Option.bind_some, Option.map_none]
        rfl
      | some remaining =>
        have hlt := (until_of_distant h0 hT hrem (hd _ (by simp [deadline, hrem]))).1
        rw [if_neg (not_le.mpr hlt), Option.bind_some]
        rfl

/-- What is left lies ahead if what was there and what is set does. -/
theorem deadline_leaves {op : KeyOp} {live : Option Entry} {P : Instant → Prop}
    (hlive : ∀ e ∈ live, ∀ d ∈ e.expireAt, P d) (hd : ∀ d ∈ op.deadline c live, P d) :
    ∀ e ∈ op.leaves c live, ∀ d ∈ e.expireAt, P d := by
  cases op with
  | set value duration =>
    rintro _ ⟨⟩
    exact hd
  | del => exact fun e he => by cases he
  | get | exists' | ttl => exact hlive
  | setAtMs value ts =>
    intro e he d hde
    obtain ⟨remaining, hrem, rfl⟩ := Option.map_eq_some_iff.mp he
    cases hde
    exact hd _ (by simp [deadline, hrem])
  | expire secs =>
    intro e he d hde
    obtain ⟨entry, rfl, rfl⟩ := Option.map_eq_some_iff.mp he
    cases hde
    exact hd _ rfl
  | expireAtMs ts =>
    intro e he d hde
    obtain ⟨entry, rfl, he⟩ := Option.bind_eq_some_iff.mp he
    obtain ⟨remaining, hrem, rfl⟩ := Option.map_eq_some_iff.mp he
    cases hde
    exact hd _ (by simp [deadline, hrem])

/-- The operations whose deadlines are timestamps. -/
def Absolute : KeyOp → Prop
  | .set _ duration => duration = none
  | .expire _ => False
  | _ => True

/-- An operation with a timestamp does the same to the outline whenever it is done. -/
theorem outline_absolute (h0 : 0 ≤ T.unix) {op : KeyOp} (hop : op.Absolute) {live : Option Entry}
    (hlive : ∀ e ∈ live, alive T.instant e) :
    ((op.leaves T live).filter (alive T.instant)).map Timed.outline =
      op.outline T (live.map Timed.outline) := by
  have hahead {value : Bytes} {ts : UInt64} {remaining : Duration}
      (hrem : durationUntilUnixMs T ts = some remaining) :
      alive T.instant (⟨value, some (T.after remaining)⟩ : Entry) = true := by
    rw [alive_iff]
    rintro _ ⟨⟩
    exact lt_add_of_pos_right _ (Int.natCast_pos.mpr (durationUntilUnixMs_pos hrem))
  have hkeep {o : Option Entry} (ho : ∀ e ∈ o, alive T.instant e) : o.filter (alive T.instant) = o := by
    cases o with
    | none => rfl
    | some e => rw [Option.filter_some, if_pos (ho e rfl)]
  have hiff (ts : UInt64) := durationUntilUnixMs_eq_none_iff T h0 ts
  cases op with
  | set value duration =>
    cases hop
    rfl
  | del => rfl
  | get | exists' | ttl => exact congrArg _ (hkeep hlive)
  | expire secs => exact hop.elim
  | setAtMs value ts =>
    rw [leaves, outline]
    cases hrem : durationUntilUnixMs T ts with
    | none =>
      rw [if_pos ((hiff ts).mp hrem)]
      rfl
    | some remaining =>
      have hts : ¬ ts.toNat ≤ T.ms := fun hle => by simp [(hiff ts).mpr hle] at hrem
      rw [if_neg hts, Option.map_some, Option.filter_some, if_pos (hahead hrem)]
      rfl
  | expireAtMs ts =>
    rw [leaves, outline]
    cases live with
    | none => split_ifs <;> rfl
    | some entry =>
      cases hrem : durationUntilUnixMs T ts with
      | none =>
        rw [if_pos ((hiff ts).mp hrem)]
        rfl
      | some remaining =>
        have hts : ¬ ts.toNat ≤ T.ms := fun hle => by simp [(hiff ts).mpr hle] at hrem
        rw [if_neg hts, Option.bind_some, Option.map_some, Option.filter_some, if_pos (hahead hrem)]
        rfl

end KeyOp

namespace DbOp

/-- The sections of an operation, one after the other, on the outline. -/
def sectionsOutline (T : Clock) (sections : List (String × KeyOp)) (σ : Outline) : Outline :=
  sections.foldl (fun σ p => Function.update σ p.1 (p.2.outline T (σ p.1))) σ

/-- What an operation does to the outline. -/
def outline (T : Clock) : DbOp → Outline → Outline
  | .flushdb, _ => fun _ => none
  | op, σ => sectionsOutline T op.sections σ

/-- The deadline that an operation on one key sets, if it sets one, is distant. -/
def SetsDistant (T c : Clock) (m : TimedMap String Bytes Instant) (op : DbOp) : Prop :=
  ∀ p ∈ op.keyOp, ∀ d ∈ p.2.deadline c (view c.instant m p.1), Distant T d

end DbOp

section Records
variable {m m' : TimedMap String Bytes Instant}

/-- Deletions, one after the other. -/
theorem sectionsOutline_del (keys : List String) (σ : Outline) :
    DbOp.sectionsOutline T (keys.map fun key => (key, .del)) σ =
      fun key => if key ∈ keys then none else σ key := by
  induction keys generalizing σ with
  | nil => rfl
  | cons key keys ih =>
    rw [List.map_cons, DbOp.sectionsOutline, List.foldl_cons]
    refine (ih _).trans (funext fun k => ?_)
    by_cases hk : k = key
    · subst hk
      rw [Function.update_self, if_pos List.mem_cons_self]
      split_ifs <;> rfl
    · rw [Function.update_of_ne hk]
      simp [hk]

theorem outline_onKey {key : String} {op : KeyOp} {wrap : op.Result → DbReply} (h0 : 0 ≤ T.unix)
    (hop : op.Absolute) : outline (view T.instant (DbOp.onKey T m key op wrap).2) =
      DbOp.sectionsOutline T [(key, op)] (outline (view T.instant m)) := by
  have hlive : ∀ e ∈ view T.instant m key, alive T.instant e := fun e he =>
    (view_eq_some_iff.mp he).2
  rw [DbOp.onKey, view_update, outline_update, KeyOp.outline_absolute h0 hop hlive]
  rfl

/-- The replay of a record does to the outline what its operation does. -/
theorem outline_replayed (h0 : 0 ≤ T.unix) (r : Record) :
    outline (view T.instant (r.op.spec T m).2) = r.op.outline T (outline (view T.instant m)) := by
  cases r with
  | set key value => exact outline_onKey h0 rfl
  | setPxAt key value ts => exact outline_onKey h0 trivial
  | expireAt key ts => exact outline_onKey h0 trivial
  | flushDb => rfl
  | del key keys =>
    refine Eq.trans ?_ (sectionsOutline_del (key :: keys) _).symm
    funext k
    change ((view T.instant (ShardedDatabase.eraseAll (key :: keys) m)) k).map Timed.outline = _
    rw [view_apply, ShardedDatabase.eraseAll]
    split_ifs <;> rfl

/-- What the log says of a command does to the outline what the command does, and sets no
deadline but distant ones. -/
theorem outline_logged (h0 : 0 ≤ c.unix) (hT : c.Advances T) {cmd : Command} {op : DbOp}
    {r : Record} (hwf : WellFormed cmd) (hl : logged c cmd = some r) (hop : cmd.dbOp = some op)
    (hd : op.SetsDistant T c m) :
    r.op.outline T (outline (view c.instant m)) = op.outline T (outline (view c.instant m)) ∧
      r.op.SetsDistant T c m := by
  -- the timestamp of a duration that sets a distant deadline
  have hstamp {duration : Duration} (hms : ∃ ms : ℕ, duration = ms * 10^6)
      (hfar : Distant T (c.after duration)) :
      durationUntilUnixMs c (expireAtMsFromNow c duration) = some duration := by
    obtain ⟨ms, hms⟩ := hms
    have hfits := hfar.toDeadlineFits.of_advances hT
    have hpos : duration ≠ 0 := by
      rintro rfl
      have hahead := hfits.ahead
      simp [Clock.after] at hahead
    have hunix := hfits.unix
    have hc := c.ms_bounds h0
    have hfit : c.ms + Duration.asMillis duration ≤ u64Max := by
      rw [Clock.after, add_sub_cancel_left] at hunix
      unfold u64Max Duration.asMillis
      omega
    rw [durationUntil_saturated h0 hms hfit, if_neg hpos]
  cases cmd with
  | set key value duration =>
    cases hop
    cases duration with
    | none =>
      cases hl
      exact ⟨rfl, hd⟩
    | some d =>
      cases hl
      obtain ⟨amount, hamount⟩ := hwf
      have hfar : Distant T (c.after d) := hd _ rfl _ rfl
      have hrem := hstamp (wholeMillis hamount) hfar
      have hlt := (until_of_distant h0 hT hrem hfar).1
      constructor
      · change Function.update _ _ (if _ then _ else _) = _
        rw [if_neg (not_le.mpr hlt)]
        rfl
      · rintro _ ⟨⟩ _ hdeadline
        simp only [KeyOp.deadline, hrem, Option.map_some, Option.mem_some_iff] at hdeadline
        exact hdeadline ▸ hfar
  | expire key secs =>
    cases hop
    cases hl
    cases hv : view c.instant m key with
    | none =>
      constructor
      · change Function.update _ _ (if _ then _ else _) = Function.update _ _ _
        rw [outline_apply, hv]
        split_ifs <;> rfl
      · rintro _ ⟨⟩ _ hdeadline
        rw [hv] at hdeadline
        cases hdeadline
    | some e =>
      have hfar : Distant T (c.after (Duration.fromSecs secs)) :=
        hd _ rfl _ (by rw [hv]; rfl)
      have hrem := hstamp (wholeMillis (.inl rfl)) hfar
      have hlt := (until_of_distant h0 hT hrem hfar).1
      constructor
      · change Function.update _ _ (if _ then _ else _) = _
        rw [if_neg (not_le.mpr hlt)]
        rfl
      · rintro _ ⟨⟩ _ hdeadline
        rw [hv] at hdeadline
        simp only [KeyOp.deadline, hrem, Option.map_some, Option.mem_some_iff] at hdeadline
        exact hdeadline ▸ hfar
  | del keys =>
    cases hop
    cases keys with
    | nil => cases hl
    | cons key keys =>
      cases hl
      exact ⟨rfl, hd⟩
  | setPxAt | expireAt | flushDb =>
    cases hop
    cases hl
    exact ⟨rfl, hd⟩
  | ping | get | exists' | keys | ttl | info | unknown => cases hl

/-- A record that sets a distant deadline when it is written fits when it is replayed. -/
theorem fits_replayed (h0 : 0 ≤ c.unix) (hT : c.Advances T) {r : Record}
    (hsame : outline (view T.instant m') = outline (view c.instant m))
    (hd : r.op.SetsDistant T c m) : r.op.Fits T m' := by
  -- a timestamp that was reached when it was written is reached at the replay
  have hlimit {ts : UInt64} (hfar : ∀ remaining, durationUntilUnixMs c ts = some remaining →
      Distant T (c.after remaining)) : ∀ d ∈ (durationUntilUnixMs T ts).map T.after,
        d < instantLimit := by
    intro d hmem
    obtain ⟨later, hlater, rfl⟩ := Option.map_eq_some_iff.mp hmem
    cases hrem : durationUntilUnixMs c ts with
    | none =>
      have hle := until_none_of_advances h0 hT hrem
      rw [(durationUntilUnixMs_eq_none_iff T (h0.trans hT.unix_le) ts).mpr hle] at hlater
      cases hlater
    | some remaining => exact (until_of_distant h0 hT hrem (hfar remaining hrem)).2 later hlater
  cases r with
  | set key value =>
    rintro _ ⟨⟩ _ ⟨⟩
  | setPxAt key value ts =>
    rintro _ ⟨⟩
    exact hlimit fun remaining hrem => hd _ rfl _ (by simp [KeyOp.deadline, hrem])
  | del | flushDb => rintro _ ⟨⟩
  | expireAt key ts =>
    rintro _ ⟨⟩ d hdeadline
    cases hv : view T.instant m' key with
    | none =>
      rw [hv] at hdeadline
      cases hdeadline
    | some e =>
      have hkey := congrFun hsame key
      rw [outline_apply, outline_apply, hv, Option.map_some] at hkey
      obtain ⟨e', hv', -⟩ := Option.map_eq_some_iff.mp hkey.symm
      rw [hv] at hdeadline
      refine hlimit (fun remaining hrem => hd _ rfl _ ?_) d hdeadline
      rw [hv']
      simp [KeyOp.deadline, hrem]

/-- The replay of a snapshot has the outline of the map that it was taken from. -/
theorem outline_snapshot {entries : List DbSnapshotEntry} (h0 : 0 ≤ c.unix) (hT : c.Advances T)
    (hsnap : ShardedDatabase.SnapshotOf c m entries)
    (hfar : ∀ key e, m key = some e → ∀ d ∈ e.expireAt, Distant T d) :
    ReplayFits T clear (entries.map Record.ofEntry) ∧
      outline (view T.instant (replay T clear (entries.map Record.ofEntry))) = outline m := by
  have hfits : DeadlinesFit c m := fun key e he d hd =>
    (hfar key e (view_eq_some_iff.mp he).1 d hd).toDeadlineFits.of_advances hT
  have hrestored := restoredAt_replay h0 hT hsnap hfits
  refine ⟨replayFits_snapshot h0 hT hsnap hfits, funext fun key => ?_⟩
  rw [outline_apply, outline_apply]
  cases hreplayed : view T.instant (replay T clear (entries.map Record.ofEntry)) key with
  | some e' =>
    obtain ⟨e, he, hvalue, hnear⟩ := hrestored.sound key e' hreplayed
    rw [(view_eq_some_iff.mp he).1, Option.map_some, Option.map_some]
    obtain ⟨value, expireAt⟩ := e
    obtain ⟨value', expireAt'⟩ := e'
    subst hvalue
    cases expireAt <;> cases expireAt' <;> first | rfl | exact hnear.elim
  | none =>
    cases he : m key with
    | none => rfl
    | some e =>
      have hlive : view T.instant m key = some e := by
        refine view_eq_some_iff.mpr ⟨he, (alive_iff _ _).mpr fun d hd => ?_⟩
        exact (hfar key e he d hd).ahead
      have hsome := hrestored.complete key e hlive fun d hd => (hfar key e he d hd).far.le
      rw [hreplayed] at hsome
      cases hsome

end Records

end Operations

end RustKV

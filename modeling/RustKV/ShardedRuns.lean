import RustKV.ShardedSpec

/-! Runs of the sharded store against one abstract map. Every operation of the store,
with purges of expired entries inserted anywhere, gives the result that it has on the
map in which an expired entry does not exist. -/
namespace RustKV
open Decimal TimedMap

/-- The operations whose results a caller sees. -/
inductive DbOp where
  | set (key : String) (value : Bytes) (expire : Option Duration)
  | setAtMs (key : String) (value : Bytes) (timestampMs : UInt64)
  | get (key : String)
  | del (keys : List String)
  | exists' (key : String)
  | keys
  | expire (key : String) (seconds : UInt64)
  | expireAtMs (key : String) (timestampMs : UInt64)
  | ttl (key : String)
  | flushdb

inductive DbReply where
  | unit (result : KvResult Unit)
  | value (result : KvResult (Option Bytes))
  | count (result : KvResult ℕ)
  | flag (result : KvResult Bool)
  | list (result : KvResult (List String))
  | seconds (result : KvResult Int64)

/-- A result as the abstract map gives it: the seconds of TTL are an integer. -/
inductive Answer where
  | unit
  | value (value : Option Bytes)
  | count (count : ℕ)
  | flag (flag : Bool)
  | list (keys : List String)
  | seconds (seconds : ℤ)
  deriving DecidableEq

/-- What a reply of the code says. -/
def DbReply.answer : DbReply → KvResult Answer
  | .unit result => result.map fun _ => .unit
  | .value result => result.map .value
  | .count result => result.map .count
  | .flag result => result.map .flag
  | .list result => result.map .list
  | .seconds result => result.map fun seconds => .seconds seconds.toInt

/-- The operations that only purge. -/
inductive Purger where
  | removeExpired
  | infoSnapshot
  | snapshotEntries

inductive DbCall where
  | op (op : DbOp)
  | purge (purger : Purger)

section Programs
variable {n : ℕ} (hash : String → UInt64)
open ShardedDatabase

/-- The `result` field of an outcome. -/
def resultOf {α : Type} (wrap : α → DbReply) (p : DbM n (DbOutcome α)) : DbM n DbReply := do
  let outcome ← p
  return wrap outcome.result

def DbOp.prog : DbOp → DbM n DbReply
  | .set key value duration => resultOf .unit (ShardedDatabase.set hash key value duration)
  | .setAtMs key value ts => resultOf .unit (ShardedDatabase.setAtMs hash key value ts)
  | .get key => resultOf .value (ShardedDatabase.get hash key)
  | .del ks => resultOf .count (ShardedDatabase.del hash ks)
  | .exists' key => resultOf .flag (ShardedDatabase.exists' hash key)
  | .keys => do
    let result ← ShardedDatabase.keys
    return .list result
  | .expire key seconds => resultOf .flag (ShardedDatabase.expire hash key seconds)
  | .expireAtMs key ts => resultOf .flag (ShardedDatabase.expireAtMs hash key ts)
  | .ttl key => resultOf .seconds (ShardedDatabase.ttl hash key)
  | .flushdb => resultOf .unit ShardedDatabase.flushdb

def DbCall.prog : DbCall → DbM n (Option DbReply)
  | .op o => do
    let reply ← o.prog hash
    return some reply
  | .purge .removeExpired => do
    let _ ← ShardedDatabase.removeExpired
    return none
  | .purge .infoSnapshot => do
    let _ ← ShardedDatabase.infoSnapshot
    return none
  | .purge .snapshotEntries => do
    let _ ← ShardedDatabase.snapshotEntries
    return none

/-- Run calls one after the other, each at its own time, and collect the replies. -/
def runCalls : List (Clock × DbCall) → ShardedDatabase n →
    Option (List DbReply) × ShardedDatabase n
  | [], db => (some [], db)
  | (c, call) :: calls, db =>
    match runAt c (call.prog hash) db with
    | (none, db') => (none, db')
    | (some reply, db') =>
      match runCalls calls db' with
      | (none, db'') => (none, db'')
      | (some replies, db'') => (some (reply.toList ++ replies), db'')

end Programs

/-- The operations of a run that are not purges. -/
def visible : List (Clock × DbCall) → List (Clock × DbOp)
  | [] => []
  | (c, .op op) :: calls => (c, op) :: visible calls
  | (_, .purge _) :: calls => visible calls

namespace DbOp

/-- The deadline that the operation computes, if any, fits in an `Instant`. -/
def Representable (c : Clock) : DbOp → Prop
  | .set _ _ duration => ∀ d ∈ duration, c.after d < instantLimit
  | .setAtMs _ _ ts => ∀ d ∈ durationUntilUnixMs c ts, c.after d < instantLimit
  | .expire _ secs => c.after (Duration.fromSecs secs) < instantLimit
  | .expireAtMs _ ts => ∀ d ∈ durationUntilUnixMs c ts, c.after d < instantLimit
  | _ => True

/-- The key and the work of an operation on one key. -/
def keyOp : DbOp → Option (String × KeyOp)
  | .set key value duration => some (key, .set value duration)
  | .setAtMs key value ts => some (key, .setAtMs value ts)
  | .get key => some (key, .get)
  | .exists' key => some (key, .exists')
  | .expire key secs => some (key, .expire secs)
  | .expireAtMs key ts => some (key, .expireAtMs ts)
  | .ttl key => some (key, .ttl)
  | .del _ | .keys | .flushdb => none

/-- The deadline that the operation sets, if any, fits in an `Instant`. -/
def Fits (c : Clock) (m : TimedMap String Bytes Instant) (op : DbOp) : Prop :=
  ∀ p ∈ op.keyOp, p.2.Fits c (view c.instant m p.1)

theorem Representable.fits {c : Clock} {op : DbOp} (h : op.Representable c)
    (m : TimedMap String Bytes Instant) : op.Fits c m := by
  have hmap {o : Option Duration} (ho : ∀ d ∈ o, c.after d < instantLimit) :
      ∀ t ∈ o.map c.after, t < instantLimit := by
    rintro t ht
    obtain ⟨d, hd, rfl⟩ := Option.map_eq_some_iff.mp ht
    exact ho d hd
  rintro ⟨key, op'⟩ hop
  cases op with
  | set | setAtMs =>
    cases hop
    exact hmap h
  | get | exists' | ttl =>
    cases hop
    simp [KeyOp.Fits, KeyOp.deadline]
  | expire _ secs =>
    cases hop
    cases view c.instant m key with
    | none => simp [KeyOp.Fits, KeyOp.deadline]
    | some entry =>
      rintro t ⟨⟩
      exact h
  | expireAtMs _ ts =>
    cases hop
    cases view c.instant m key with
    | none => simp [KeyOp.Fits, KeyOp.deadline]
    | some entry => exact hmap h
  | del | keys | flushdb => cases hop

/-- An operation on one key of the abstract map. -/
def onKey (c : Clock) (m : TimedMap String Bytes Instant) (key : String) (op : KeyOp)
    (wrap : op.Result → DbReply) : DbReply × TimedMap String Bytes Instant :=
  (wrap (op.reply c (view c.instant m key)),
    Function.update m key (op.leaves c (view c.instant m key)))

/-- What the operation does on the abstract map, with its reply in the types of the code. -/
noncomputable def spec (c : Clock) (m : TimedMap String Bytes Instant) :
    DbOp → DbReply × TimedMap String Bytes Instant
  | .set key value duration => onKey c m key (.set value duration) .unit
  | .setAtMs key value ts => onKey c m key (.setAtMs value ts) .unit
  | .get key => onKey c m key .get .value
  | .del ks => (.count (.ok (ShardedDatabase.liveCount c.instant m ks)),
      ShardedDatabase.eraseAll ks m)
  | .exists' key => onKey c m key .exists' .flag
  | .keys => (.list (.ok (liveKeys c.instant m)), m)
  | .expire key secs => onKey c m key (.expire secs) .flag
  | .expireAtMs key ts => onKey c m key (.expireAtMs ts) .flag
  | .ttl key => onKey c m key .ttl .seconds
  | .flushdb => (.unit (.ok ()), clear)

/-- What the operation returns on the abstract map. -/
noncomputable def answer (c : Clock) (m : TimedMap String Bytes Instant) : DbOp → Answer
  | .set .. | .setAtMs .. | .flushdb => .unit
  | .get key => .value ((view c.instant m key).map Timed.value)
  | .del ks => .count (ShardedDatabase.liveCount c.instant m ks)
  | .exists' key | .expire key _ | .expireAtMs key _ => .flag (view c.instant m key).isSome
  | .keys => .list (liveKeys c.instant m)
  | .ttl key => .seconds (Database.ttlOf c (view c.instant m key))

/-- The seconds left that a TTL of a live key with a deadline asks for fit in an `i64`. -/
def SecondsFit (c : Clock) (m : TimedMap String Bytes Instant) : DbOp → Prop
  | .ttl key => ∀ entry ∈ view c.instant m key, ∀ t ∈ entry.expireAt, secsLeft c t ≤ 2^63 - 1
  | _ => True

/-- An operation cannot tell maps apart that look alike. -/
theorem fits_congr {c : Clock} {m m' : TimedMap String Bytes Instant}
    (h : view c.instant m = view c.instant m') (op : DbOp) : op.Fits c m ↔ op.Fits c m' := by
  simp only [Fits, h]

theorem view_spec_congr {c : Clock} {m m' : TimedMap String Bytes Instant}
    (h : view c.instant m = view c.instant m') (op : DbOp) :
    view c.instant (op.spec c m).2 = view c.instant (op.spec c m').2 := by
  have honKey (key : String) (op : KeyOp) (wrap : op.Result → DbReply) :
      view c.instant (onKey c m key op wrap).2 = view c.instant (onKey c m' key op wrap).2 := by
    simp only [onKey, view_update, h]
  cases op with
  | del ks => exact ShardedDatabase.view_eraseAll ks h
  | keys => exact h
  | flushdb => rfl
  | _ => exact honKey _ _ _

end DbOp

/-- The replies of a run on the abstract map, in the types of the code. -/
noncomputable def specReplies :
    List (Clock × DbOp) → TimedMap String Bytes Instant → List DbReply
  | [], _ => []
  | (c, op) :: ops, m => (op.spec c m).1 :: specReplies ops (op.spec c m).2

/-- What a run returns on the abstract map. -/
noncomputable def specAnswers :
    List (Clock × DbOp) → TimedMap String Bytes Instant → List (KvResult Answer)
  | [], _ => []
  | (c, op) :: ops, m => .ok (op.answer c m) :: specAnswers ops (op.spec c m).2

/-- The seconds left fit in an `i64` at every TTL of a run on the abstract map. -/
def SecondsFit : List (Clock × DbOp) → TimedMap String Bytes Instant → Prop
  | [], _ => True
  | (c, op) :: ops, m => op.SecondsFit c m ∧ SecondsFit ops (op.spec c m).2

theorem int64_ofInt_eq_iff (v : ℕ) : (Int64.ofInt v).toInt = v ↔ v ≤ 2^63 - 1 := by
  constructor
  · intro h
    have hlt := Int64.toInt_lt (Int64.ofInt v)
    rw [h] at hlt
    omega
  · intro h
    apply Int64.toInt_ofInt_of_le <;> omega

/-- The cast to `i64` keeps the answer of TTL if and only if the seconds left fit. -/
theorem ttlOf_cast_iff (c : Clock) (live : Option Entry) :
    (Int64.ofInt (Database.ttlOf c live)).toInt = Database.ttlOf c live ↔
      ∀ entry ∈ live, ∀ t ∈ entry.expireAt, secsLeft c t ≤ 2^63 - 1 := by
  cases live with
  | none => simp [Database.ttlOf]
  | some entry =>
    cases ht : entry.expireAt with
    | none => simp [Database.ttlOf, ht]
    | some t =>
      have hof : Database.ttlOf c (some entry) = secsLeft c t := by simp only [Database.ttlOf, ht]
      rw [hof, int64_ofInt_eq_iff]
      simp only [Option.mem_some_iff, forall_eq', ht]

/-- The reply of one operation says what the abstract map returns if and only if the
seconds left fit, where it is a TTL. -/
theorem answer_spec_iff (c : Clock) (m : TimedMap String Bytes Instant) (op : DbOp) :
    (op.spec c m).1.answer = .ok (op.answer c m) ↔ op.SecondsFit c m := by
  cases op with
  | ttl key =>
    have hreply : ((DbOp.ttl key).spec c m).1.answer =
        .ok (.seconds (Int64.ofInt (Database.ttlOf c (view c.instant m key))).toInt) := rfl
    rw [hreply, DbOp.answer, Except.ok.injEq, Answer.seconds.injEq, ttlOf_cast_iff]
    rfl
  | _ =>
    simp [DbOp.spec, DbOp.onKey, DbReply.answer, Except.map, KeyOp.reply, DbOp.answer,
      DbOp.SecondsFit]

theorem specReplies_answer_iff (ops : List (Clock × DbOp)) (m : TimedMap String Bytes Instant) :
    (specReplies ops m).map DbReply.answer = specAnswers ops m ↔ SecondsFit ops m := by
  induction ops generalizing m with
  | nil => simp [specReplies, specAnswers, SecondsFit]
  | cons p ops ih =>
    obtain ⟨c, op⟩ := p
    rw [specReplies, specAnswers, SecondsFit, List.map_cons, List.cons_eq_cons, answer_spec_iff, ih]

section Simulation
variable {n : ℕ} {hash : String → UInt64} {c : Clock} {db : ShardedDatabase n}
  {m : TimedMap String Bytes Instant}
open ShardedDatabase

/-- What a program ensures of its result, it ensures of its outcome. -/
theorem ensures_of_resultOf {α : Type} {wrap : α → DbReply} {p : DbM n (DbOutcome α)}
    {P : DbReply → ShardedDatabase n → Prop} (hp : Prog.Ensures (exec c) (resultOf wrap p) db P) :
    Prog.Ensures (exec c) p db fun outcome db' => P (wrap outcome.result) db' := by
  obtain ⟨r, db', hrun, hP⟩ := hp
  rw [resultOf, Prog.run_bind] at hrun
  rcases ho : p.run (exec c) db with ⟨_ | outcome, db''⟩ <;> rw [ho] at hrun <;> cases hrun
  exact ⟨outcome, _, ho, hP⟩

theorem panics_of_resultOf {α : Type} {wrap : α → DbReply} {p : DbM n (DbOutcome α)}
    {db' : ShardedDatabase n} (hp : runAt c (resultOf wrap p) db = (none, db')) :
    runAt c p db = (none, db') := by
  rw [runAt, resultOf, Prog.run_bind] at hp
  rw [runAt]
  rcases ho : p.run (exec c) db with ⟨_ | outcome, db''⟩ <;> rw [ho] at hp <;> cases hp
  rfl

/-- The store and the abstract map look alike from now on. -/
structure Simulates (c : Clock) (hash : String → UInt64) (db : ShardedDatabase n)
    (m : TimedMap String Bytes Instant) : Prop where
  routed : Routed hash db
  view_eq : view c.instant (db.toMap hash) = view c.instant m

theorem Simulates.of_le {d : Clock} (h : Simulates c hash db m) (hcd : c.instant ≤ d.instant) :
    Simulates d hash db m := ⟨h.routed, view_eq_of_le hcd h.view_eq⟩

theorem simulates_onKey (h : Simulates c hash db m) (key : String) (op : KeyOp)
    (wrap : op.Result → DbReply) (hf : op.Fits c (view c.instant m key)) :
    Prog.Ensures (exec c) (resultOf wrap (onShard hash key op)) db fun reply db' =>
      reply = (DbOp.onKey c m key op wrap).1 ∧
        Simulates c hash db' (DbOp.onKey c m key op wrap).2 := by
  have hk := congrFun h.view_eq key
  refine Prog.ensures_bind ((onShard_spec h.routed key op).2 (hk ▸ hf)) ?_
  rintro outcome db' ⟨hres, hr, he⟩
  refine Prog.ensures_pure ⟨?_, hr, ?_⟩
  · rw [hres, hk]
    rfl
  · rw [he.view_eq, hk]
    simp only [DbOp.onKey, view_update, h.view_eq]

theorem panics_onKey (h : Simulates c hash db m) (key : String) (op : KeyOp)
    (wrap : op.Result → DbReply) (hf : ¬ op.Fits c (view c.instant m key)) :
    ∃ db', runAt c (resultOf wrap (onShard hash key op)) db = (none, db') ∧
      Simulates c hash db' m := by
  have hk := congrFun h.view_eq key
  obtain ⟨db', hrun, hr, hp⟩ := (onShard_spec (c := c) h.routed key op).1 (hk ▸ hf)
  exact ⟨db', Prog.run_bind_none hrun, hr, hp.view_eq.trans h.view_eq⟩

/-- One operation keeps the simulation and gives the reply of the abstract map. -/
theorem simulates_op (h : Simulates c hash db m) (op : DbOp) (hop : op.Fits c m) :
    Prog.Ensures (exec c) (op.prog hash) db fun reply db' =>
      reply = (op.spec c m).1 ∧ Simulates c hash db' (op.spec c m).2 := by
  cases op with
  | set | setAtMs | get | exists' | expire | expireAtMs | ttl =>
    exact simulates_onKey h _ _ _ (hop _ rfl)
  | del keys =>
    obtain ⟨outcome, db', hrun, hres, hr, hv⟩ := del_spec (c := c) keys h.routed
    refine Prog.ensures_run_bind hrun (Prog.ensures_pure ⟨?_, hr, hv.trans (view_eraseAll keys h.view_eq)⟩)
    rw [hres, liveCount_congr keys h.view_eq]
    rfl
  | keys =>
    refine Prog.ensures_run_bind (keys_spec h.routed) (Prog.ensures_pure ⟨?_, h⟩)
    rw [liveKeys_congr h.view_eq]
    rfl
  | flushdb =>
    obtain ⟨db', hrun, hr, hmap⟩ := flushdb_spec (c := c)
    exact Prog.ensures_run_bind hrun (Prog.ensures_pure ⟨rfl, hr, by rw [hmap]; rfl⟩)

/-- An operation whose deadline does not fit panics, and changes nothing to be seen. -/
theorem panics_op (h : Simulates c hash db m) (op : DbOp) (hop : ¬ op.Fits c m) :
    ∃ db', runAt c (op.prog hash) db = (none, db') ∧ Simulates c hash db' m := by
  cases op with
  | set | setAtMs | get | exists' | expire | expireAtMs | ttl =>
    exact panics_onKey h _ _ _ fun hf => hop (by rintro _ ⟨⟩; exact hf)
  | del | keys | flushdb => exact absurd (by rintro _ ⟨⟩) hop

theorem ShardedDatabase.Purged.simulates {db' : ShardedDatabase n} (hp : Purged c hash db db')
    (h : Simulates c hash db m) : Simulates c hash db' m :=
  ⟨hp.1, hp.2.view_eq.trans h.view_eq⟩

/-- A purge cannot be seen. -/
theorem simulates_purge (h : Simulates c hash db m) (purger : Purger) :
    Prog.Ensures (exec c) ((DbCall.purge purger).prog hash) db fun reply db' =>
      reply = none ∧ Simulates c hash db' m := by
  cases purger with
  | removeExpired =>
    exact Prog.ensures_bind (removeExpired_spec h.routed) fun _ db' hp =>
      Prog.ensures_pure ⟨rfl, hp.simulates h⟩
  | infoSnapshot =>
    exact Prog.ensures_bind (infoSnapshot_spec h.routed) fun _ db' hp =>
      Prog.ensures_pure ⟨rfl, hp.simulates h⟩
  | snapshotEntries =>
    exact Prog.ensures_bind (snapshotEntries_spec h.routed) fun _ db' hp =>
      Prog.ensures_pure ⟨rfl, hp.1.simulates h⟩

/-- Every deadline of a run fits in an `Instant`. -/
def RunRepresentable (calls : List (Clock × DbCall)) : Prop :=
  ∀ p ∈ visible calls, p.2.Representable p.1

/-- The run lemma, from a store that simulates the abstract map at the start. -/
theorem runCalls_of_simulates (calls : List (Clock × DbCall))
    (htime : calls.Pairwise fun a b => a.1.instant ≤ b.1.instant)
    (hrep : RunRepresentable calls) (hsim : ∀ p ∈ calls.head?, Simulates p.1 hash db m) :
    (runCalls hash calls db).1 = some (specReplies (visible calls) m) := by
  induction calls generalizing db m with
  | nil => rfl
  | cons p calls ih =>
    obtain ⟨c, call⟩ := p
    obtain ⟨hle, hlater⟩ := List.pairwise_cons.mp htime
    have hsim := hsim (c, call) rfl
    have hnext {db' : ShardedDatabase n} {m' : TimedMap String Bytes Instant}
        (hs : Simulates c hash db' m') : ∀ p ∈ calls.head?, Simulates p.1 hash db' m' :=
      fun p hp => hs.of_le (hle p (List.mem_of_mem_head? hp))
    cases call with
    | op op =>
      obtain ⟨hop, hothers⟩ := List.forall_mem_cons.mp hrep
      obtain ⟨reply, db', hrun, hreply, hs⟩ := simulates_op hsim op (hop.fits m)
      have hrun' : runAt c ((DbCall.op op).prog hash) db = (some (some reply), db') :=
        Prog.run_bind_some hrun
      have hih := ih hlater hothers (hnext hs)
      rw [runCalls, hrun', hreply]
      rcases hr : runCalls hash calls db' with ⟨_ | replies, db''⟩ <;> rw [hr] at hih
      · cases hih
      · simp only [hr, Option.some.inj hih]
        rfl
    | purge purger =>
      obtain ⟨reply, db', hrun, rfl, hs⟩ := simulates_purge hsim purger
      have hih := ih hlater hrep (hnext hs)
      rw [runCalls, show runAt c ((DbCall.purge purger).prog hash) db = (some none, db') from hrun]
      rcases hr : runCalls hash calls db' with ⟨_ | replies, db''⟩ <;> rw [hr] at hih
      · cases hih
      · simp only [hr, Option.some.inj hih]
        rfl

/-- Sharding, lazy expiry and purges are invisible: the replies of every run of a new
store are those of one abstract map on the operations that are not purges. -/
theorem runCalls_new (n : ℕ) (hash : String → UInt64) (calls : List (Clock × DbCall))
    (htime : calls.Pairwise fun a b => a.1.instant ≤ b.1.instant)
    (hrep : RunRepresentable calls) :
    (runCalls hash calls (ShardedDatabase.new n)).1 =
      some (specReplies (visible calls) clear) := by
  refine runCalls_of_simulates calls htime hrep fun p _ => ⟨?_, rfl⟩
  intro i key h
  exact absurd (AList.lookup_empty key) h

/-- A run of a new store returns what one abstract map returns on the operations that are
not purges, if and only if the seconds left fit in an `i64` at every TTL of the run. -/
theorem runCalls_answers_iff (n : ℕ) (hash : String → UInt64) (calls : List (Clock × DbCall))
    (htime : calls.Pairwise fun a b => a.1.instant ≤ b.1.instant)
    (hrep : RunRepresentable calls) :
    (runCalls hash calls (ShardedDatabase.new n)).1.map (List.map DbReply.answer) =
        some (specAnswers (visible calls) clear) ↔
      SecondsFit (visible calls) clear := by
  rw [runCalls_new n hash calls htime hrep, Option.map_some, Option.some_inj]
  exact specReplies_answer_iff (visible calls) clear

end Simulation

/-- A key that expires between two reads, with a purge in between, beside one that lives. -/
def sampleCalls : List (Clock × DbCall) :=
  [(⟨0, 0⟩, .op (.set "a" [1] (some 5))), (⟨1, 1⟩, .op (.set "b" [2] (some (3 * 10^9)))),
    (⟨3, 3⟩, .purge .removeExpired), (⟨4, 4⟩, .op (.get "a")), (⟨4, 4⟩, .op (.ttl "b")),
    (⟨5, 5⟩, .op (.del ["a", "a"])), (⟨5, 5⟩, .op (.ttl "a")), (⟨5, 5⟩, .op .keys)]

theorem runCalls_answers_iff_sample :
    (runCalls (fun key => key.length.toUInt64) sampleCalls (ShardedDatabase.new 2)).1.map
      (List.map DbReply.answer) = some (specAnswers (visible sampleCalls) clear) := by
  refine (runCalls_answers_iff 2 _ sampleCalls (by simp [sampleCalls]) ?_).mpr ?_
  · simp [RunRepresentable, sampleCalls, visible, DbOp.Representable, Clock.after, instantLimit]
  · simp [sampleCalls, visible, SecondsFit, DbOp.SecondsFit, DbOp.spec, DbOp.onKey, KeyOp.leaves,
      ShardedDatabase.eraseAll, secsLeft, view_apply, Clock.after]

/-- A deadline that an `Instant` just holds, and a TTL at once. -/
def farCalls : List (Clock × DbCall) :=
  [(⟨0, 0⟩, .op (.set "k" [118] (some (2^63 * 10^9 - 1)))), (⟨0, 0⟩, .op (.ttl "k"))]

theorem runCalls_farCalls :
    farCalls.Pairwise (fun a b => a.1.instant ≤ b.1.instant) ∧ RunRepresentable farCalls ∧
      (runCalls (fun _ => 0) farCalls (ShardedDatabase.new 1)).1 =
        some [.unit (.ok ()), .seconds (.ok Int64.minValue)] ∧
      specAnswers (visible farCalls) clear = [.ok .unit, .ok (.seconds (2^63))] ∧
      (runCalls (fun _ => 0) farCalls (ShardedDatabase.new 1)).1.map (List.map DbReply.answer) ≠
        some (specAnswers (visible farCalls) clear) := by
  have htime : farCalls.Pairwise fun a b => a.1.instant ≤ b.1.instant := by simp [farCalls]
  have hrep : RunRepresentable farCalls := by
    simp [RunRepresentable, farCalls, visible, DbOp.Representable, Clock.after, instantLimit]
  have hreplies : specReplies (visible farCalls) clear =
      [.unit (.ok ()), .seconds (.ok Int64.minValue)] := by
    simp [farCalls, visible, specReplies, DbOp.spec, DbOp.onKey, KeyOp.reply, KeyOp.leaves,
      view_apply, Clock.after]
    decide
  have hanswers : specAnswers (visible farCalls) clear = [.ok .unit, .ok (.seconds (2^63))] := by
    simp [farCalls, visible, specAnswers, DbOp.spec, DbOp.onKey, DbOp.answer, KeyOp.leaves,
      view_apply, Clock.after]
    decide
  have hrun := runCalls_new 1 (fun _ => 0) farCalls htime hrep
  rw [hreplies] at hrun
  refine ⟨htime, hrep, hrun, hanswers, ?_⟩
  rw [hrun, hanswers]
  decide

end RustKV

import RustKV.ShardedAtoms
import RustKV.ShardedBalance

/-! The store beside other tasks is linearizable, up to a DEL of several keys. The atomic
operations of all calls, in the order of their sections, are a run of one abstract map that gives
every call its result. A call that walks over all shards takes effect when it gets the global lock;
from then on it runs as if alone. -/
namespace RustKV
open Decimal TimedMap Tasks Prog ShardedDatabase

/-- An atomic operation of a task, at the time that its section read, and its reply. -/
structure AtomEvent (ι : Type) where
  task : ι
  clock : Clock
  atom : Atom
  reply : AtomReply

/-- The events are a run of the abstract map from `m` to `m'`. -/
def Replays {ι : Type} (m : TimedMap String Bytes Instant) :
    List (AtomEvent ι) → TimedMap String Bytes Instant → Prop
  | [], m' => m' = m
  | e :: es, m' => e.reply = (e.atom.spec e.clock m).1 ∧ Replays (e.atom.spec e.clock m).2 es m'

/-- The TTLs of the order return the seconds that are left on the abstract map, as integers. -/
def ExactTtls {ι : Type} : TimedMap String Bytes Instant → List (AtomEvent ι) → Prop
  | _, [] => True
  | m, e :: es => (∀ key secs, e.atom = .key key .ttl → e.reply = .reply (.seconds (.ok secs)) →
      secs.toInt = Database.ttlOf e.clock (view e.clock.instant m key)) ∧
    ExactTtls (e.atom.spec e.clock m).2 es

/-- The section of a TTL finds no more seconds left than an `i64` can hold. -/
def TtlFits {n : ℕ} : DbAct n → Clocked n → Prop
  | .shard i (.key key .ttl), s => (DbOp.ttl key).SecondsFit s.clock (s.db.shards i).toMap
  | _, _ => True

/-- The call of `i` ended before that of `j` began. -/
def Precedes {ι : Type} (labels : List (Label ι)) (i j : ι) : Prop :=
  ∃ before after, labels = before ++ after ∧ (.finish i ∈ before ∨ .panic i ∈ before) ∧
    .start j ∈ after

section Order
variable {ι : Type} [DecidableEq ι] {n : ℕ}

/-- What the task `i` has done so far. -/
def eventsOf (order : List (AtomEvent ι)) (i : ι) : List (Atom × AtomReply) :=
  (order.filter fun e => e.task = i).map fun e => (e.atom, e.reply)

/-- The order explains the run that led to `cfg`: see the fields. `returns` says how the result of
a call comes from the replies of its atomic operations. -/
structure Linearization (returns : DbCall → List AtomReply → CallReply → Prop) (calls : ι → DbCall)
    (m₀ : TimedMap String Bytes Instant) (labels : List (Label ι)) (cfg : DbConfig ι n)
    (order : List (AtomEvent ι)) : Prop where
  /-- The replies are those of one abstract map. -/
  legal : ∃ m, Replays m₀ order m
  clocks : order.Pairwise fun e f => e.clock.instant ≤ f.clock.instant
  /-- A call does its atomic operations, in their order, and nothing before it begins. -/
  atoms : ∀ i, (eventsOf order i).map Prod.fst <+: (calls i).atoms
  waiting : ∀ i, cfg.status i = .idle → eventsOf order i = []
  /-- A call that has returned has done them all, and returned what they give. -/
  results : ∀ i r, cfg.status i = .done (some r) →
    (eventsOf order i).map Prod.fst = (calls i).atoms ∧
      returns (calls i) ((eventsOf order i).map Prod.snd) r
  /-- What a call does that has ended comes before what later calls do. -/
  realTime : ∀ i j, Precedes labels i j → order.Pairwise fun e f => ¬ (e.task = j ∧ f.task = i)
  /-- Between two deletions of one DEL no operation on all keys takes place. -/
  undivided : ∀ e w f, [e, w, f].Sublist order → e.task = f.task → ¬ w.atom.IsWhole

/-- The clock moves on, but not while a task holds the global lock for writing. -/
def Ticks (status : ι → DbStatus n) (c c' : Clock) : Prop :=
  c.instant ≤ c'.instant ∧ ∀ j, (.global, .write) ∉ (status j).held

omit [DecidableEq ι] in
theorem Replays.append {m m' : TimedMap String Bytes Instant} {order : List (AtomEvent ι)}
    (h : Replays m order m') {e : AtomEvent ι} (he : e.reply = (e.atom.spec e.clock m').1) :
    Replays m (order ++ [e]) (e.atom.spec e.clock m').2 := by
  induction order generalizing m with
  | nil =>
    cases h
    exact ⟨he, rfl⟩
  | cons f order ih => exact ⟨h.1, ih h.2⟩

omit [DecidableEq ι] in
theorem ExactTtls.append {m m' : TimedMap String Bytes Instant} {order es : List (AtomEvent ι)}
    (h : ExactTtls m order) (hr : Replays m order m') (h' : ExactTtls m' es) :
    ExactTtls m (order ++ es) := by
  induction order generalizing m with
  | nil =>
    cases hr
    exact h'
  | cons e order ih => exact ⟨h.1, ih h.2 hr.2⟩

theorem eventsOf_append_self (order : List (AtomEvent ι)) (e : AtomEvent ι) :
    eventsOf (order ++ [e]) e.task = eventsOf order e.task ++ [(e.atom, e.reply)] := by
  simp [eventsOf]

theorem eventsOf_append_ne (order : List (AtomEvent ι)) {e : AtomEvent ι} {i : ι} (h : e.task ≠ i) :
    eventsOf (order ++ [e]) i = eventsOf order i := by
  simp [eventsOf, h]

theorem task_ne_of_eventsOf_nil {order : List (AtomEvent ι)} {i : ι} (h : eventsOf order i = [])
    {e : AtomEvent ι} (he : e ∈ order) : e.task ≠ i := by
  intro hi
  have hmem : (e.atom, e.reply) ∈ eventsOf order i :=
    List.mem_map.mpr ⟨e, List.mem_filter.mpr ⟨he, by simpa using hi⟩, rfl⟩
  rw [h] at hmem
  cases hmem

noncomputable def eventAt (hash : String → UInt64) (cfg : DbConfig ι n) (i : ι) (atom : Atom) :
    AtomEvent ι :=
  ⟨i, cfg.shared.clock, atom, (atom.spec cfg.shared.clock (cfg.shared.db.toMap hash)).1⟩

/-- What takes effect at a step: an operation on one key in its section, an operation on all keys
when it gets the global lock. -/
noncomputable def happens (hash : String → UInt64) (cfg : DbConfig ι n) :
    Label ι → List (AtomEvent ι)
  | .act i =>
    match cfg.status i with
    | .running _ (.act (.shard _ (.key key op)) _) _ => [eventAt hash cfg i (.key key op)]
    | .running call (.act (.acquire .global mode) _) _ =>
      if mode = .write then call.atoms.map (eventAt hash cfg i) else []
    | _ => []
  | _ => []

omit [DecidableEq ι] in
theorem mem_happens {hash : String → UInt64} {cfg : DbConfig ι n} {label : Label ι}
    {e : AtomEvent ι} (h : e ∈ happens hash cfg label) :
    label = .act e.task ∧ (cfg.status e.task).isRunning ∧ e.clock = cfg.shared.clock := by
  cases label with
  | act i =>
    have hevent {atom : Atom} (hrunning : (cfg.status i).isRunning) (he : e = eventAt hash cfg i atom) :
        Label.act i = .act e.task ∧ (cfg.status e.task).isRunning ∧ e.clock = cfg.shared.clock := by
      subst he
      exact ⟨rfl, hrunning, rfl⟩
    simp only [happens] at h
    split at h
    · rename_i hi
      exact hevent (by rw [hi]; rfl) (List.mem_singleton.mp h)
    · rename_i hi
      split_ifs at h
      · obtain ⟨atom, -, he⟩ := List.mem_map.mp h
        exact hevent (by rw [hi]; rfl) he.symm
      · cases h
    · cases h
  | _ => cases h

end Order

section Calls
variable {n : ℕ} {hash : String → UInt64}

theorem DbCall.atoms_of_read {call : DbCall} (h : call.kind.mode = .read) :
    ∃ sections, call.kind = .keyed sections ∧
      call.atoms = sections.map fun work => .key work.1 work.2 := by
  rcases call with o | purger
  · cases o <;> first | exact ⟨_, rfl, rfl⟩ | cases h
  · cases h

theorem DbCall.atoms_of_write {call : DbCall} (h : call.kind.mode = .write) :
    ∃ atom, call.atoms = [atom] ∧ atom.IsWhole := by
  rcases call with o | purger
  · cases o <;> first | exact ⟨_, rfl, trivial⟩ | cases h
  · exact ⟨_, rfl, trivial⟩

def KeyStep.event (step : KeyStep) : Atom × AtomReply := (.key step.key step.op, .reply step.reply)

/-- The result of a call on single keys, from the sections that it has run. -/
theorem DbCall.returns_of_read {exact : Prop} {call : DbCall} (hmode : call.kind.mode = .read)
    {st : Progress n} {r : CallReply} (hends : call.Ends st r)
    (hdel : ∀ step ∈ st.steps, step.op = .del → ∃ k, step.reply = .count (.ok k))
    (hatoms : (st.steps.map KeyStep.event).map Prod.fst <+: call.atoms) :
    (st.steps.map KeyStep.event).map Prod.fst = call.atoms ∧
      call.ReturnsIf exact ((st.steps.map KeyStep.event).map Prod.snd) r := by
  obtain ⟨-, hends⟩ := hends
  rcases call with o | purger
  · rcases r with reply | _ | _ | _ <;> try exact hends.elim
    have hsingle (hcombines : st.steps.map KeyStep.work = o.sections ∧
        st.steps.map KeyStep.reply = [reply]) (hkind : o.kind = .keyed o.sections)
        (hreturns : ∀ r', (DbCall.op o).Returns [.reply r'] (.reply reply) ↔ reply = r')
        (hall : (DbCall.op o).atoms = o.sections.map fun work => .key work.1 work.2) :
        (st.steps.map KeyStep.event).map Prod.fst = (DbCall.op o).atoms ∧
          (DbCall.op o).ReturnsIf exact ((st.steps.map KeyStep.event).map Prod.snd) (.reply reply) := by
      obtain ⟨hwork, hreply⟩ := hcombines
      constructor
      · rw [hall, ← hwork, List.map_map, List.map_map]
        rfl
      · have hsnd : (st.steps.map KeyStep.event).map Prod.snd = [.reply reply] := by
          rw [← List.map_singleton, ← hreply, List.map_map, List.map_map]
          rfl
        rw [hsnd, DbCall.returnsIf_op]
        exact (hreturns reply).mpr rfl
    cases o with
    | keys | flushdb => cases hmode
    | del keys =>
      have hop : ∀ step ∈ st.steps, step.op = .del := by
        intro step hstep
        have hmem := hatoms.subset (List.mem_map_of_mem (List.mem_map_of_mem hstep))
        simp only [DbCall.atoms, DbOp.sections, List.map_map, List.mem_map] at hmem
        obtain ⟨key, -, hkey⟩ := hmem
        exact (Atom.key.inj hkey).2.symm
      have hcounts := fun step hstep => hdel step hstep (hop step hstep)
      obtain ⟨hwork, hresult⟩ := hends hcounts
      refine ⟨?_, DbCall.returnsIf_op.mpr ⟨st.steps.map fun step => step.reply.removed, ?_, hresult⟩⟩
      · change _ = (DbOp.del keys).sections.map _
        rw [← hwork, List.map_map, List.map_map]
        rfl
      · rw [List.map_map, List.map_map]
        refine List.map_congr_left fun step hstep => ?_
        obtain ⟨k, hk⟩ := hcounts step hstep
        simp only [Function.comp_apply, KeyStep.event, hk]
        rfl
    | set | setAtMs | get | exists' | expire | expireAtMs | ttl =>
      exact hsingle hends rfl (fun _ => Iff.rfl) rfl
  · cases hmode

end Calls

section Invariant
variable {ι : Type} [DecidableEq ι] {n : ℕ} {hash : String → UInt64} {exact : Prop}
  {s s' : Clocked n} {m m' : TimedMap String Bytes Instant} {events : List (Atom × AtomReply)}
  {call : DbCall} {p : DbM n CallReply} {st : Progress n}

/-- What the events of a task say about a call that is under way. One that walks over all shards
has had its effect when it got the global lock, and will return accordingly. -/
structure Explained (hash : String → UInt64) (exact : Prop) (s : Clocked n)
    (m : TimedMap String Bytes Instant) (events : List (Atom × AtomReply)) (call : DbCall)
    (p : DbM n CallReply) (st : Progress n) : Prop where
  follows : Follows (stages hash call.kind) call.Ends st p
  begins : st.stage = .outside → st.steps = [] ∧ p = call.task hash ∧ events = []
  keyed : call.kind.mode = .read → events = st.steps.map KeyStep.event ∧
    events.map Prod.fst <+: call.atoms ∧
    ∀ step ∈ st.steps, step.op = .del → ∃ k, step.reply = .count (.ok k)
  whole : call.kind.mode = .write → st.stage ≠ .outside →
    events.map Prod.fst = call.atoms ∧
      ∀ r, p = .ret r → call.ReturnsIf exact (events.map Prod.snd) r
  inside : (.global, .write) ∈ st.stage.guards → Ensures (exec s.clock) p s.db fun r db' =>
    call.ReturnsIf exact (events.map Prod.snd) r ∧ Simulates s.clock hash db' m

/-- What the events of a task say about its status. -/
def Accounts (hash : String → UInt64) (exact : Prop) (s : Clocked n)
    (m : TimedMap String Bytes Instant) (call : DbCall) (events : List (Atom × AtomReply)) :
    DbStatus n → Prop
  | .idle => events = []
  | .running call' p held => call' = call ∧ ∃ st : Progress n, held = st.stage.guards ∧
      Explained hash exact s m events call p st
  | .done r => events.map Prod.fst <+: call.atoms ∧ ∀ r', r = some r' →
      events.map Prod.fst = call.atoms ∧ call.ReturnsIf exact (events.map Prod.snd) r'

/-- The order explains the configuration, and the map that it leads to is what the store shows
when nobody walks over the shards. -/
structure OrderInv (hash : String → UInt64) (calls : ι → DbCall) (exact : Prop)
    (m₀ : TimedMap String Bytes Instant) (cfg : DbConfig ι n) (order : List (AtomEvent ι))
    (m : TimedMap String Bytes Instant) : Prop where
  legal : Replays m₀ order m
  shows : (∀ j, (.global, .write) ∉ (cfg.status j).held) →
    Simulates cfg.shared.clock hash cfg.shared.db m
  tasks : ∀ i, Accounts hash exact cfg.shared m (calls i) (eventsOf order i) (cfg.status i)
  clocks : order.Pairwise fun e f => e.clock.instant ≤ f.clock.instant
  past : ∀ e ∈ order, e.clock.instant ≤ cfg.shared.clock.instant
  sharing : ∀ i, (.global, .read) ∈ (cfg.status i).held → ∀ e w, [e, w].Sublist order →
    e.task = i → ¬ w.atom.IsWhole
  undivided : ∀ e w f, [e, w, f].Sublist order → e.task = f.task → ¬ w.atom.IsWhole

/-- What a task has done is a beginning of what its call does. -/
theorem Accounts.atoms {status : DbStatus n} (h : Accounts hash exact s m call events status) :
    events.map Prod.fst <+: call.atoms := by
  cases status with
  | idle =>
    have hnil : events = [] := h
    rw [hnil]
    exact List.nil_prefix
  | done r => exact h.1
  | running call' p held =>
    obtain ⟨-, st, -, he⟩ := h
    cases hmode : call.kind.mode with
    | read => exact (he.keyed hmode).2.1
    | write =>
      by_cases hst : st.stage = .outside
      · rw [(he.begins hst).2.2]
        exact List.nil_prefix
      · rw [(he.whole hmode hst).1]

/-- The events of a task that does not walk over the shards depend on nothing else. -/
theorem Accounts.of_bystander {status : DbStatus n} (h : Accounts hash exact s m call events status)
    (hstatus : (.global, .write) ∉ status.held) : Accounts hash exact s' m' call events status := by
  cases status with
  | idle | done => exact h
  | running call' p held =>
    obtain ⟨hcall, st, rfl, he⟩ := h
    exact ⟨hcall, st, rfl, he.follows, he.begins, he.keyed, he.whole, fun hg => absurd hg hstatus⟩

theorem sublist_concat {α : Type} {l order : List α} {a b : α}
    (h : (l ++ [a]).Sublist (order ++ [b])) : (l ++ [a]).Sublist order ∨ l.Sublist order ∧ a = b := by
  rw [← List.reverse_sublist] at h
  simp only [List.reverse_append, List.reverse_cons, List.reverse_nil, List.nil_append,
    List.singleton_append] at h
  rcases List.cons_sublist_cons'.mp h with h | ⟨hab, h⟩
  · refine .inl ?_
    rw [← List.reverse_sublist]
    simpa using h
  · exact .inr ⟨List.reverse_sublist.mp h, hab⟩

variable {calls : ι → DbCall} {m₀ : TimedMap String Bytes Instant} {cfg : DbConfig ι n}
  {order : List (AtomEvent ι)} {i : ι} {status : DbStatus n}

/-- A step of the task `i` that is not the effect of an operation. -/
theorem OrderInv.of_quiet (h : OrderInv hash calls exact m₀ cfg order m)
    (hclock : s.clock = cfg.shared.clock)
    (hothers : s = cfg.shared ∨ ∀ j ≠ i, (.global, .write) ∉ (cfg.status j).held)
    (hshows : (∀ j, (.global, .write) ∉ ((cfg.set i s status).status j).held) →
      Simulates s.clock hash s.db m)
    (hself : Accounts hash exact s m (calls i) (eventsOf order i) status)
    (hsharing : (.global, .read) ∈ status.held →
      eventsOf order i = [] ∨ (.global, .read) ∈ (cfg.status i).held) :
    OrderInv hash calls exact m₀ (cfg.set i s status) order m := by
  refine ⟨h.legal, hshows, fun j => ?_, h.clocks, fun e he => ?_, fun j hj e w hsub he => ?_,
    h.undivided⟩
  · by_cases hj : j = i
    · subst hj
      rw [Config.set_status_self]
      exact hself
    · rw [cfg.set_status_ne hj, Config.set_shared]
      rcases hothers with rfl | hothers
      · exact h.tasks j
      · exact (h.tasks j).of_bystander (hothers j hj)
  · rw [Config.set_shared, hclock]
    exact h.past e he
  · by_cases hji : j = i
    · subst hji
      rw [Config.set_status_self] at hj
      rcases hsharing hj with hnil | hmem
      · exact absurd he (task_ne_of_eventsOf_nil hnil (hsub.subset List.mem_cons_self))
      · exact h.sharing j hmem e w hsub he
    · rw [cfg.set_status_ne hji] at hj
      exact h.sharing j hj e w hsub he

/-- The step of a task at which an operation takes effect. -/
theorem OrderInv.of_event {e : AtomEvent ι} (h : OrderInv hash calls exact m₀ cfg order m)
    (hclock : s.clock = cfg.shared.clock) (hnow : e.clock = s.clock)
    (hothers : ∀ j ≠ e.task, (.global, .write) ∉ (cfg.status j).held)
    (hreply : e.reply = (e.atom.spec e.clock m).1)
    (hshows : (∀ j, (.global, .write) ∉ ((cfg.set e.task s status).status j).held) →
      Simulates s.clock hash s.db (e.atom.spec e.clock m).2)
    (hself : Accounts hash exact s (e.atom.spec e.clock m).2 (calls e.task)
      (eventsOf order e.task ++ [(e.atom, e.reply)]) status)
    (hkey : ¬ e.atom.IsWhole → (.global, .read) ∈ (cfg.status e.task).held)
    (hwhole : e.atom.IsWhole → eventsOf order e.task = [] ∧ (.global, .read) ∉ status.held ∧
      ∀ j ≠ e.task, (.global, .read) ∉ (cfg.status j).held) :
    OrderInv hash calls exact m₀ (cfg.set e.task s status) (order ++ [e])
      (e.atom.spec e.clock m).2 := by
  have hsub {f w : AtomEvent ι} (hfw : [f, w].Sublist (order ++ [e])) :
      [f, w].Sublist order ∨ f ∈ order ∧ w = e := by
    rcases sublist_concat (l := [f]) hfw with hs | ⟨hs, hw⟩
    · exact .inl hs
    · exact .inr ⟨List.singleton_sublist.mp hs, hw⟩
  refine ⟨h.legal.append hreply, hshows, fun j => ?_, ?_, fun f hf => ?_, fun j hj f w hfw hf => ?_,
    fun f w g hfwg hfg => ?_⟩
  · by_cases hj : j = e.task
    · subst hj
      rw [Config.set_status_self, eventsOf_append_self]
      exact hself
    · rw [cfg.set_status_ne hj, eventsOf_append_ne order (Ne.symm hj)]
      exact (h.tasks j).of_bystander (hothers j hj)
  · rw [List.pairwise_append]
    refine ⟨h.clocks, List.pairwise_singleton .., fun f hf g hg => ?_⟩
    rw [List.mem_singleton.mp hg, hnow, hclock]
    exact h.past f hf
  · rw [Config.set_shared, hclock]
    rcases List.mem_append.mp hf with hf | hf
    · exact h.past f hf
    · rw [List.mem_singleton.mp hf, hnow, hclock]
  · intro hw
    by_cases hji : j = e.task
    · subst hji
      rw [Config.set_status_self] at hj
      rcases hsub hfw with hs | ⟨hs, rfl⟩
      · by_cases he : e.atom.IsWhole
        · exact (hwhole he).2.1 hj
        · exact h.sharing _ (hkey he) f w hs hf hw
      · exact (hwhole hw).2.1 hj
    · rw [cfg.set_status_ne hji] at hj
      rcases hsub hfw with hs | ⟨hs, rfl⟩
      · exact h.sharing j hj f w hs hf hw
      · exact (hwhole hw).2.2 j hji hj
  · rcases sublist_concat (l := [f, w]) hfwg with hs | ⟨hs, rfl⟩
    · exact h.undivided f w g hs hfg
    · by_cases he : g.atom.IsWhole
      · exact absurd hfg (task_ne_of_eventsOf_nil (hwhole he).1 (hs.subset List.mem_cons_self))
      · exact h.sharing _ (hkey he) f w hs hfg

end Invariant

section Actions
variable {ι : Type} [DecidableEq ι] {n : ℕ} {hash : String → UInt64} {exact : Prop}
  {calls : ι → DbCall} {m₀ m : TimedMap String Bytes Instant} {cfg : DbConfig ι n}
  {order : List (AtomEvent ι)} {i : ι} {call : DbCall} {a : DbAct n} {k : a.Answer → DbM n CallReply}
  {st : Progress n} {answer : a.Answer} {db : ShardedDatabase n} {c : Clock}

theorem exec_shards {db' : ShardedDatabase n} (ha : exec c a db = (some answer, db'))
    (hshard : ∀ x scall, a ≠ .shard x scall) : db'.shards = db.shards := by
  cases a with
  | shard x scall => exact absurd rfl (hshard x scall)
  | _ =>
    cases ha
    rfl

omit [DecidableEq ι] in
/-- The key counter is not seen in the contents. -/
theorem Simulates.of_shards {db' : ShardedDatabase n} (h : Simulates c hash db m)
    (hdb : db'.shards = db.shards) : Simulates c hash db' m := by
  rcases db' with ⟨shards, keyCount⟩
  cases hdb
  exact ⟨h.routed, h.view_eq⟩

/-- An operation on single keys does not hold the global lock for writing. -/
theorem Progress.not_writing {kind : Kind} (hmode : kind.mode = .read) {st : Progress n}
    (h : st.Allows hash kind a) : (.global, .write) ∉ st.stage.guards := by
  cases h <;> simp [Stage.guards, hmode]

theorem Progress.not_writing_next {kind : Kind} (hmode : kind.mode = .read) {st : Progress n}
    (h : st.Allows hash kind a) : (.global, .write) ∉ (st.next a answer).stage.guards := by
  intro hg
  rw [Progress.guards_next answer h] at hg
  cases h with
  | enter => simp [Stage.guards, DbAct.use, LockUse.after, hmode] at hg
  | lock | now | loadLen | storeLen | leave | run | loadLenLocked | unlock | count =>
    simp [Stage.guards, DbAct.use, LockUse.after, hmode] at hg

/-- Within the global lock it is held in the mode of the operation. -/
theorem Progress.global_mem {kind : Kind} {st : Progress n} (h : st.Allows hash kind a)
    (hst : st.stage ≠ .outside) : (.global, kind.mode) ∈ st.stage.guards := by
  cases h with
  | enter => exact absurd rfl hst
  | _ => simp [Stage.guards]

theorem Progress.reading {kind : Kind} {st : Progress n} (h : st.Allows hash kind a)
    (hg : (.global, .read) ∈ st.stage.guards) : kind.mode = .read := by
  cases h <;> simp [Stage.guards] at hg <;> exact hg.symm

theorem getElem?_prefix {α : Type} {l all : List α} {x : α} (h : l <+: all)
    (hx : all[l.length]? = some x) : l ++ [x] <+: all := by
  obtain ⟨rest, rfl⟩ := h
  rw [List.getElem?_append_right le_rfl, Nat.sub_self] at hx
  obtain ⟨rest, rfl⟩ := List.head?_eq_some_iff.mp (List.head?_eq_getElem? ▸ hx)
  exact ⟨rest, by simp⟩

/-- An action of a call on single keys that is not a section. -/
theorem Explained.of_quiet_read {s s' : Clocked n} {m' : TimedMap String Bytes Instant}
    {events : List (Atom × AtomReply)}
    (h : Explained hash exact s m events call (.act a k) st) (hmode : call.kind.mode = .read)
    (hsteps : (st.next a answer).steps = st.steps) :
    Explained hash exact s' m' events call (k answer) (st.next a answer) where
  follows := h.follows.2 answer
  begins hst := absurd hst (Progress.next_stage_ne answer h.follows.1)
  keyed _ := hsteps ▸ h.keyed hmode
  whole hw := by
    rw [hmode] at hw
    cases hw
  inside hg := absurd hg (Progress.not_writing_next hmode h.follows.1)

/-- A section of a call on single keys. -/
theorem Explained.of_section {s s' : Clocked n} {m' : TimedMap String Bytes Instant}
    {events : List (Atom × AtomReply)} {x : Fin (n + 1)} {key : String} {op : KeyOp}
    {k : Locked op.Result → DbM n CallReply} {mode : LockMode} {steps : List KeyStep}
    (h : Explained hash exact s m events call (.act (.shard x (.key key op)) k)
      ⟨.locked call.kind.mode x mode, steps⟩)
    (hmode : call.kind.mode = .read)
    (hruns : call.kind.Runs hash steps.length x mode (.key key op)) (locked : Locked op.Result)
    (hdel : op = .del → ∃ k, op.wrap locked.result = .count (.ok k)) :
    Explained hash exact s' m' (events ++ [(.key key op, .reply (op.wrap locked.result))]) call
      (k locked) ⟨.changed call.kind.mode x locked.before locked.after,
        steps ++ [⟨key, op, op.wrap locked.result⟩]⟩ where
  follows := h.follows.2 locked
  begins hst := by cases hst
  keyed _ := by
    obtain ⟨hevents, hatoms, hall⟩ := h.keyed hmode
    obtain ⟨sections, hkind, hsections⟩ := call.atoms_of_read hmode
    rw [hkind] at hruns
    refine ⟨by rw [hevents, List.map_append]; rfl, ?_, fun step hstep hop => ?_⟩
    · rw [List.map_append]
      refine getElem?_prefix hatoms ?_
      rw [hsections, List.getElem?_map, hevents, List.length_map, List.length_map, hruns.1]
      rfl
    · rcases List.mem_append.mp hstep with hstep | hstep
      · exact hall step hstep hop
      · cases List.mem_singleton.mp hstep
        exact hdel hop
  whole hw := by
    rw [hmode] at hw
    cases hw
  inside hg := by simp [Stage.guards, hmode] at hg

/-- A call that walks over the shards goes on as if alone. -/
theorem Explained.of_write {s : Clocked n} {events : List (Atom × AtomReply)}
    (h : Explained hash exact s m events call (.act a k) st) (hmode : call.kind.mode = .write)
    (hst : st.stage ≠ .outside) (ha : exec s.clock a s.db = (some answer, db)) :
    Ensures (exec s.clock) (k answer) db (fun r db' =>
      call.ReturnsIf exact (events.map Prod.snd) r ∧ Simulates s.clock hash db' m) ∧
    Explained hash exact { s with db := db } m events call (k answer) (st.next a answer) := by
  have hinside := h.inside (hmode ▸ Progress.global_mem h.follows.1 hst)
  have hnext : Ensures (exec s.clock) (k answer) db fun r db' =>
      call.ReturnsIf exact (events.map Prod.snd) r ∧ Simulates s.clock hash db' m := by
    obtain ⟨r, db', hrun, hr⟩ := hinside
    rw [run_act, ha] at hrun
    exact ⟨r, db', hrun, hr⟩
  refine ⟨hnext, h.follows.2 answer, fun hout => ?_, fun hread => ?_, fun _ _ => ?_, fun _ => hnext⟩
  · exact absurd hout (Progress.next_stage_ne answer h.follows.1)
  · rw [hmode] at hread
    cases hread
  · refine ⟨(h.whole hmode hst).1, fun r hr => ?_⟩
    obtain ⟨r', db', hrun, hr', -⟩ := hnext
    rw [hr] at hrun
    cases hrun
    exact hr'

end Actions

section Steps
variable {ι : Type} [DecidableEq ι] {n : ℕ} {hash : String → UInt64} {exact : Prop}
  {calls : ι → DbCall} {m₀ m : TimedMap String Bytes Instant} {cfg cfg' : DbConfig ι n}
  {order : List (AtomEvent ι)} {i : ι} {call : DbCall} {a : DbAct n}
  {k : a.Answer → DbM n CallReply} {st : Progress n} {answer : a.Answer} {db : ShardedDatabase n}

theorem OrderInv.of_act_read (h : OrderInv hash calls exact m₀ cfg order m)
    (hi : cfg.status i = .running (calls i) (.act a k) st.stage.guards)
    (he : Explained hash exact cfg.shared m (eventsOf order i) (calls i) (.act a k) st)
    (hmode : (calls i).kind.mode = .read)
    (hothers : ∀ j ≠ i, (.global, .write) ∉ (cfg.status j).held)
    (ha : exec cfg.shared.clock a cfg.shared.db = (some answer, db)) :
    ∃ m, OrderInv hash calls exact m₀ (cfg.set i { cfg.shared with db := db }
      (.running (calls i) (k answer) (a.use.after st.stage.guards)))
      (order ++ happens hash cfg (.act i)) m := by
  have hallows := he.follows.1
  change st.Allows hash (calls i).kind a at hallows
  have hshows : Simulates cfg.shared.clock hash cfg.shared.db m := by
    refine h.shows fun j => ?_
    by_cases hj : j = i
    · rw [hj, hi]
      exact Progress.not_writing hmode hallows
    · exact hothers j hj
  have hguards := Progress.guards_next answer hallows
  -- the actions that change nothing that can be seen
  have hquiet (hshard : ∀ x scall, a ≠ .shard x scall) (hsteps : (st.next a answer).steps = st.steps)
      (hhappens : happens hash cfg (.act i) = [])
      (hin : (.global, .read) ∈ a.use.after st.stage.guards →
        st.stage = .outside ∨ (.global, .read) ∈ st.stage.guards) :
      ∃ m, OrderInv hash calls exact m₀ (cfg.set i { cfg.shared with db := db }
        (.running (calls i) (k answer) (a.use.after st.stage.guards)))
        (order ++ happens hash cfg (.act i)) m := by
    rw [hhappens, List.append_nil]
    refine ⟨m, h.of_quiet rfl (.inr hothers) (fun _ => hshows.of_shards (exec_shards ha hshard))
      ⟨rfl, _, hguards.symm, he.of_quiet_read hmode hsteps⟩ fun hg => ?_⟩
    rcases hin hg with hst | hg
    · exact .inl (he.begins hst).2.2
    · rw [hi]
      exact .inr hg
  cases hallows with
  | enter => exact hquiet (by simp) rfl (by simp [happens, hi, hmode]) fun _ => .inl rfl
  | lock | loadLen | leave | loadLenLocked | unlock | count =>
    exact hquiet (by simp) rfl (by simp [happens, hi]) fun _ => .inr (by simp [Stage.guards, hmode])
  | now hkind | storeLen hkind =>
    rw [hkind] at hmode
    cases hmode
  | @run mode x scall steps hruns =>
    obtain ⟨sections, hkind, -⟩ := (calls i).atoms_of_read hmode
    have hruns' := hruns
    rw [hkind] at hruns'
    cases scall with
    | key key op =>
      obtain ⟨-, hx, -⟩ := hruns'
      subst hx
      rcases hrun : op.run cfg.shared.clock (cfg.shared.db.shards (shardForKey hash key)) key
        with ⟨_ | locked, shard⟩
      · simp only [exec, ShardCall.run, hrun] at ha
        cases ha
      · simp only [exec, ShardCall.run, hrun] at ha
        obtain ⟨hlocked, rfl⟩ := Prod.mk.inj ha
        obtain rfl := Option.some.inj hlocked
        obtain ⟨hreply, hsim⟩ := hshows.of_section hrun
        let e : AtomEvent ι := ⟨i, cfg.shared.clock, .key key op, .reply (op.wrap locked.result)⟩
        have hhappens : happens hash cfg (.act i) = [e] := by
          simp only [happens, hi, eventAt, List.cons.injEq, AtomEvent.mk.injEq, and_true, true_and, e]
          exact (view_atom_spec_congr hshows.view_eq _).1.trans hreply.symm
        rw [hhappens]
        refine ⟨_, h.of_event (e := e) rfl rfl hothers hreply (fun _ => hsim)
          ⟨rfl, _, hguards.symm, he.of_section hmode hruns locked ?_⟩ (fun _ => ?_) fun hw => hw.elim⟩
        · rintro rfl
          exact ⟨_, AtomReply.reply.inj hreply⟩
        · rw [hi]
          simp [Stage.guards, hmode]
    | _ => exact hruns'.elim

theorem OrderInv.of_act_write (h : OrderInv hash calls exact m₀ cfg order m)
    (hi : cfg.status i = .running (calls i) (.act a k) st.stage.guards)
    (he : Explained hash exact cfg.shared m (eventsOf order i) (calls i) (.act a k) st)
    (hmode : (calls i).kind.mode = .write)
    (hothers : ∀ j ≠ i, (.global, .write) ∉ (cfg.status j).held)
    (hfree : a = .acquire .global .write → ∀ j ≠ i, (cfg.status j).held = [])
    (hexact : exact → (∀ j, (cfg.status j).held = []) →
      cfg.shared.db.keyCount = cfg.shared.db.stored)
    (ha : exec cfg.shared.clock a cfg.shared.db = (some answer, db)) :
    ∃ m, OrderInv hash calls exact m₀ (cfg.set i { cfg.shared with db := db }
      (.running (calls i) (k answer) (a.use.after st.stage.guards)))
      (order ++ happens hash cfg (.act i)) m := by
  have hallows := he.follows.1
  change st.Allows hash (calls i).kind a at hallows
  have hguards := Progress.guards_next answer hallows
  by_cases hst : st.stage = .outside
  · -- the operation takes effect
    obtain ⟨stage, steps⟩ := st
    change stage = .outside at hst
    subst hst
    obtain ⟨hsteps, hp, hevents⟩ := he.begins rfl
    cases hallows with
    | enter =>
    cases ha
    have hfree := hfree (by rw [hmode])
    have hidle (j : ι) : (cfg.status j).held = [] := by
      by_cases hj : j = i
      · rw [hj, hi]
        rfl
      · exact hfree j hj
    have hshows := h.shows fun j => by
      rw [hidle j]
      exact List.not_mem_nil
    obtain ⟨atom, hatoms, hwhole⟩ := (calls i).atoms_of_write hmode
    obtain ⟨r, db', hrun, hr, hsim⟩ := walk_spec hshows (calls i) hatoms hwhole
    rw [← hp] at hrun
    let e : AtomEvent ι := ⟨i, cfg.shared.clock, atom, (atom.spec cfg.shared.clock m).1⟩
    have hinside : Ensures (exec cfg.shared.clock) (k answer) cfg.shared.db fun r db' =>
        (calls i).ReturnsIf exact [e.reply] r ∧
          Simulates cfg.shared.clock hash db' (atom.spec cfg.shared.clock m).2 :=
      ⟨r, db', hrun, hr.mono fun hx => hexact hx hidle, hsim⟩
    have hmem : (.global, .write) ∈ (LockUse.acquire DbLock.global (calls i).kind.mode).after
        (Stage.outside (n := n)).guards := by simp [LockUse.after, hmode]
    have hhappens : happens hash cfg (.act i) = [e] := by
      simp only [happens, hi, hmode, if_true, hatoms, eventAt, List.map_cons, List.map_nil,
        List.cons.injEq, AtomEvent.mk.injEq, and_true, true_and, e]
      exact (view_atom_spec_congr hshows.view_eq atom).1
    rw [hhappens]
    refine ⟨_, h.of_event (e := e) rfl rfl hothers rfl (fun hno => ?_)
      ⟨rfl, _, hguards.symm, ?_⟩ (fun hn => absurd hwhole hn) fun _ => ⟨hevents, ?_, fun j hj => ?_⟩⟩
    · have := hno i
      rw [Config.set_status_self] at this
      exact absurd hmem this
    · change Explained hash exact _ _ (eventsOf order i ++ [(atom, e.reply)]) _ _ _
      rw [hevents]
      refine ⟨he.follows.2 answer, (fun hout => by cases hout), fun hread => ?_, fun _ _ => ⟨?_, ?_⟩,
        fun _ => hinside⟩
      · rw [hmode] at hread
        cases hread
      · exact hatoms.symm
      · intro r' hr'
        rw [hr'] at hinside
        obtain ⟨_, _, hrun', hr'', -⟩ := hinside
        cases hrun'
        exact hr''
    · simp [DbAct.use, LockUse.after, Stage.guards, hmode]
    · rw [hfree j hj]
      exact List.not_mem_nil
  · -- the effect is past, and the task goes on alone until it gives up its guard
    obtain ⟨hnext, hex⟩ := he.of_write hmode hst ha
    have hhappens : happens hash cfg (.act i) = [] := by
      cases hallows with
      | enter => exact absurd rfl hst
      | @run mode x scall steps hruns =>
        obtain ⟨atom, hatoms, hwhole⟩ := (calls i).atoms_of_write hmode
        cases scall with
        | key => cases hkind : (calls i).kind <;> rw [hkind] at hruns hmode <;> cases hmode <;>
            exact hruns.elim
        | _ => simp [happens, hi]
      | _ => simp [happens, hi]
    rw [hhappens, List.append_nil]
    refine ⟨m, h.of_quiet rfl (.inr hothers) (fun hno => ?_) ⟨rfl, _, hguards.symm, hex⟩
      fun hg => ?_⟩
    · -- the task has left: its program has nothing more to do
      have hself := hno i
      rw [Config.set_status_self, Status.held_running, ← hguards] at hself
      rcases hk : k answer with r | ⟨a', k'⟩
      · rw [hk] at hnext
        obtain ⟨_, _, hrun, -, hsim⟩ := hnext
        cases hrun
        exact hsim
      · have hf := hex.follows
        rw [hk] at hf
        exact absurd (hmode ▸ Progress.global_mem hf.1 (Progress.next_stage_ne answer hallows)) hself
    · exfalso
      rw [← hguards] at hg
      rcases hk : k answer with r | ⟨a', k'⟩
      · have hf := hex.follows
        rw [hk] at hf
        have hleft : (st.next a answer).stage = .left := hf.1
        rw [hleft] at hg
        cases hg
      · have hf := hex.follows
        rw [hk] at hf
        cases hmode.symm.trans (Progress.reading hf.1 hg)

/-- If the seconds left fit where a TTL takes effect, its reply is exact. -/
theorem OrderInv.exactTtls (h : OrderInv hash calls exact m₀ cfg order m)
    (hi : cfg.status i = .running (calls i) (.act a k) st.stage.guards)
    (he : Explained hash exact cfg.shared m (eventsOf order i) (calls i) (.act a k) st)
    (hothers : ∀ j ≠ i, (.global, .write) ∉ (cfg.status j).held) (hfits : TtlFits a cfg.shared) :
    ExactTtls m (happens hash cfg (.act i)) := by
  have hallows := he.follows.1
  change st.Allows hash (calls i).kind a at hallows
  have hallowed := hallows
  cases hallows with
  | enter =>
    cases hmode : (calls i).kind.mode with
    | read => simp [happens, hi, hmode, ExactTtls]
    | write =>
      -- an operation on all keys is no TTL
      obtain ⟨atom, hatoms, hwhole⟩ := (calls i).atoms_of_write hmode
      simp only [happens, hi, hmode, if_true, hatoms, List.map_cons, List.map_nil]
      refine ⟨fun key secs hkey => ?_, trivial⟩
      obtain rfl : atom = .key key .ttl := hkey
      exact hwhole.elim
  | @run mode x scall steps hruns =>
    cases scall with
    | key key op =>
      obtain ⟨hmode, hx⟩ : (calls i).kind.mode = .read ∧ shardForKey hash key = x := by
        cases hkind : (calls i).kind with
        | keyed =>
          rw [hkind] at hruns
          exact ⟨rfl, hruns.2.1⟩
        | _ =>
          rw [hkind] at hruns
          exact hruns.elim
      have hshows : Simulates cfg.shared.clock hash cfg.shared.db m := by
        refine h.shows fun j => ?_
        by_cases hj : j = i
        · rw [hj, hi]
          exact Progress.not_writing hmode hallowed
        · exact hothers j hj
      subst hx
      simp only [happens, hi]
      refine ⟨fun key' secs hatom hreply => ?_, trivial⟩
      cases hatom
      cases hreply
      change _ = Database.ttlOf cfg.shared.clock (view cfg.shared.clock.instant m key)
      rw [← hshows.view_eq]
      exact (ttlOf_cast_iff cfg.shared.clock _).mpr hfits
    | _ => simp [happens, hi, ExactTtls]
  | _ => simp [happens, hi, ExactTtls]

/-- Every step is explained by what happens at it. -/
theorem OrderInv.of_step {Q : DbAct n → Clocked n → Prop} {s₀ : Clocked n} {label : Label ι}
    (hreach : Reachable ((dbSystem hash calls Ticks).restrict Q) s₀ cfg)
    (hexact : exact → (∀ j, (cfg.status j).held = []) →
      cfg.shared.db.keyCount = cfg.shared.db.stored)
    (h : OrderInv hash calls exact m₀ cfg order m)
    (hstep : Step ((dbSystem hash calls Ticks).restrict Q) cfg label cfg') :
    ∃ m, OrderInv hash calls exact m₀ cfg' (order ++ happens hash cfg label) m := by
  -- a task that steps without an action does not walk over the shards
  have hrest {i : ι} {status : DbStatus n} (hnone : (cfg.status i).held = []) (hheld : status.held = [])
      (hself : Accounts hash exact cfg.shared m (calls i) (eventsOf order i) status) :
      OrderInv hash calls exact m₀ (cfg.set i cfg.shared status) (order ++ []) m := by
    rw [List.append_nil]
    refine h.of_quiet rfl (.inl rfl) (fun hno => h.shows fun j => ?_) hself fun hg => ?_
    · by_cases hj : j = i
      · rw [hj, hnone]
        exact List.not_mem_nil
      · have := hno j
        rwa [cfg.set_status_ne hj] at this
    · rw [hheld] at hg
      cases hg
  cases hstep with
  | @start i call' hidle hcall =>
    have hevents : eventsOf order i = [] := by
      have := h.tasks i
      rwa [hidle] at this
    obtain rfl : call' = calls i := hcall
    refine ⟨m, hrest (by rw [hidle]; rfl) rfl ⟨rfl, ⟨.outside, []⟩, rfl, ?_⟩⟩
    rw [hevents]
    refine ⟨(calls i).follows_task, fun _ => ⟨rfl, rfl, rfl⟩, fun _ => ⟨rfl, List.nil_prefix, ?_⟩,
      fun _ hst => absurd rfl hst, fun hg => by cases hg⟩
    intro step hmem
    cases hmem
  | @finish i call' r held hi =>
    have htask := h.tasks i
    have hatoms := htask.atoms
    rw [hi] at htask
    obtain ⟨rfl, st, rfl, he⟩ := htask
    have hleft : st.stage = .left := he.follows.1
    refine ⟨m, hrest (by rw [hi, Status.held_running, hleft]; rfl) (System.finished_held ..) ?_⟩
    refine ⟨hatoms, ?_⟩
    rintro r' ⟨⟩
    cases hmode : (calls i).kind.mode with
    | read =>
      obtain ⟨hevents, -, hdel⟩ := he.keyed hmode
      rw [hevents] at hatoms ⊢
      exact DbCall.returns_of_read hmode he.follows hdel hatoms
    | write =>
      obtain ⟨hall, hreturns⟩ := he.whole hmode (by rw [hleft]; simp)
      exact ⟨hall, hreturns r rfl⟩
  | @environment s henv =>
    obtain ⟨⟨hle, hfree⟩, hdb⟩ := henv
    rw [show happens hash cfg .environment = [] from rfl, List.append_nil]
    refine ⟨m, h.legal, fun hno => ?_, fun j => (h.tasks j).of_bystander (hfree j), h.clocks,
      fun e he => (h.past e he).trans hle, h.sharing, h.undivided⟩
    change Simulates s.clock hash s.db m
    rw [hdb]
    exact (h.shows hno).of_le hle
  | @panic i call' a k held s hi hadm hdoes =>
    obtain ⟨-, hexec⟩ := hdoes
    obtain ⟨db, ha, rfl⟩ := does_dbSystem.mp hexec
    have hothers : ∀ j ≠ i, (.global, .write) ∉ (cfg.status j).held := fun j hj hg =>
      not_admits_of_writer hreach hg (Ne.symm hj) hi hadm
    have htask := h.tasks i
    have hatoms := htask.atoms
    rw [hi] at htask
    obtain ⟨rfl, st, rfl, he⟩ := htask
    have hno : (.global, .write) ∉ st.stage.guards := by
      intro hg
      obtain ⟨r, db', hrun, -⟩ := he.inside hg
      rw [run_act, ha] at hrun
      cases hrun
    have hshows : Simulates cfg.shared.clock hash cfg.shared.db m := by
      refine h.shows fun j => ?_
      by_cases hj : j = i
      · rw [hj, hi]
        exact hno
      · exact hothers j hj
    rw [show happens hash cfg (.panic i) = [] from rfl, List.append_nil]
    refine ⟨m, h.of_quiet rfl (.inr hothers) (fun _ => ?_)
      ⟨hatoms, fun r' hr' => by cases hr'⟩ fun hg => by cases hg⟩
    have hallows := he.follows.1
    change st.Allows hash (calls i).kind a at hallows
    cases hallows with
    | @run mode x scall steps hruns =>
      have hmode : (calls i).kind.mode = .read := by
        cases hkind : (calls i).kind.mode with
        | read => rfl
        | write => exact absurd (by simp [Stage.guards, hkind]) hno
      obtain ⟨sections, hkind, -⟩ := (calls i).atoms_of_read hmode
      rw [hkind] at hruns
      cases scall with
      | key key op =>
        obtain ⟨-, hx, -⟩ := hruns
        subst hx
        rcases hrun : op.run cfg.shared.clock (cfg.shared.db.shards (shardForKey hash key)) key
          with ⟨_ | locked, shard⟩
        · simp only [exec, ShardCall.run, hrun] at ha
          cases ha
          exact hshows.of_panic hrun
        · simp only [exec, ShardCall.run, hrun] at ha
          cases ha
      | _ => exact hruns.elim
    | _ => cases ha
  | @act i call' a k held answer s hi hadm hdoes =>
    obtain ⟨-, hexec⟩ := hdoes
    obtain ⟨db, ha, rfl⟩ := does_dbSystem.mp hexec
    have hothers : ∀ j ≠ i, (.global, .write) ∉ (cfg.status j).held := fun j hj hg =>
      not_admits_of_writer hreach hg (Ne.symm hj) hi hadm
    have htask := h.tasks i
    rw [hi] at htask
    obtain ⟨rfl, st, rfl, he⟩ := htask
    cases hmode : (calls i).kind.mode with
    | read => exact h.of_act_read hi he hmode hothers ha
    | write =>
      refine h.of_act_write hi he hmode hothers (fun hacq j hj => ?_) hexact ha
      subst hacq
      cases hs : cfg.status j with
      | idle | done => rfl
      | running call' p held =>
        obtain ⟨st', -, rfl, -⟩ := progress_of_reachable hreach hs
        refine List.eq_nil_iff_forall_not_mem.mpr fun guard hg => ?_
        obtain ⟨mode, hmem⟩ := Stage.global_mem_guards hg
        have hcompatible := hadm j mode (by rw [hs]; exact hmem)
        exact absurd hcompatible.2 (by decide)

end Steps

section Runs
variable {ι : Type} [DecidableEq ι] {n : ℕ} {hash : String → UInt64} {calls : ι → DbCall}
  {Q : DbAct n → Clocked n → Prop} {c : Clock} {db : ShardedDatabase n} {labels : List (Label ι)}
  {cfg : DbConfig ι n}

/-- A task whose call has ended stays as it is. -/
theorem done_of_ended {s₀ : Clocked n}
    (h : Run ((dbSystem hash calls Ticks).restrict Q) (.initial s₀) labels cfg) {i : ι}
    (hi : .finish i ∈ labels ∨ .panic i ∈ labels) : (cfg.status i).isRunning = false ∧
      cfg.status i ≠ .idle := by
  induction h with
  | nil => simp at hi
  | @snoc labels cfg cfg' label hrun hstep ih =>
    simp only [List.mem_append, List.mem_singleton] at hi
    have hcases := hstep.status_cases i
    by_cases hbefore : .finish i ∈ labels ∨ .panic i ∈ labels
    · obtain ⟨hnot, hne⟩ := ih hbefore
      rcases hcases with hs | ⟨_, -, hidle, -⟩ | ⟨_, _, _, _, _, -, hr, -⟩ | ⟨_, _, _, _, -, hr, -⟩ |
        ⟨_, _, _, -, hr, -⟩
      · rw [hs]
        exact ⟨hnot, hne⟩
      · exact absurd hidle hne
      all_goals
        rw [hr] at hnot
        cases hnot
    · have hlabel : label = .finish i ∨ label = .panic i := by
        rcases hi with (hi | hi) | (hi | hi)
        · exact absurd (.inl hi) hbefore
        · exact .inl hi.symm
        · exact absurd (.inr hi) hbefore
        · exact .inr hi.symm
      cases hstep with
      | start | act | environment => rcases hlabel with hl | hl <;> cases hl
      | panic =>
        rcases hlabel with hl | hl
        · cases hl
        · cases hl
          rw [Config.set_status_self]
          exact ⟨rfl, by simp⟩
      | finish =>
        rcases hlabel with hl | hl
        · cases hl
          rw [Config.set_status_self]
          exact ⟨rfl, by simp [System.finished, System.restrict, dbSystem]⟩
        · cases hl

omit [DecidableEq ι] in
/-- Whoever starts does so once, and has not done anything before. -/
theorem precedes_concat {label : Label ι} {i j : ι} (h : Precedes (labels ++ [label]) i j) :
    Precedes labels i j ∨ label = .start j ∧ (.finish i ∈ labels ∨ .panic i ∈ labels) := by
  obtain ⟨before, after, hsplit, hi, hj⟩ := h
  rcases List.eq_nil_or_concat after with rfl | ⟨after, last, rfl⟩
  · cases hj
  · rw [List.concat_eq_append, ← List.append_assoc] at hsplit
    obtain ⟨rfl, hlast⟩ := List.append_inj' hsplit rfl
    cases hlast
    rw [List.concat_eq_append, List.mem_append, List.mem_singleton] at hj
    rcases hj with hj | hj
    · exact .inl ⟨before, after, rfl, hi, hj⟩
    · exact .inr ⟨hj.symm, hi.imp (List.mem_append_left _) (List.mem_append_left _)⟩

/-- The key counts are right in a run in which no `set` panics after it has purged entries. -/
def Exact (Q : DbAct n → Clocked n → Prop) (db : ShardedDatabase n) : Prop :=
  (∀ a s, Q a s → Careful a s) ∧ db.keyCount = db.stored

theorem keyCount_of_exact (hexact : Exact Q db)
    (h : Reachable ((dbSystem hash calls Ticks).restrict Q) ⟨c, db⟩ cfg)
    (hfree : ∀ j, (cfg.status j).held = []) : cfg.shared.db.keyCount = cfg.shared.db.stored := by
  have hinv := counterInv_of_reachable hexact.2 (h.restrict_mono hexact.1)
  obtain ⟨counted, hb⟩ := hinv.balanced fun j hj => by
    have := hj.holds
    rw [hfree j] at this
    cases this
  refine hb.stored_eq fun j x before after hd => ?_
  have := hd.holds
  rw [hfree j] at this
  cases this

/-- What happens in a run of tasks that call the store, on any number of shards, explains it. -/
theorem orderInv_of_observed {order : List (AtomEvent ι)} (hr : Routed hash db)
    (h : Observed ((dbSystem hash calls Ticks).restrict Q) (happens hash) (.initial ⟨c, db⟩) labels
      order cfg) : ∃ m, OrderInv hash calls (Exact Q db) (db.toMap hash) cfg order m := by
  induction h with
  | nil =>
    refine ⟨db.toMap hash, rfl, fun _ => ⟨hr, rfl⟩, fun i => rfl, .nil, List.forall_mem_nil _,
      fun i hg => absurd hg List.not_mem_nil, fun e w f hsub => ?_⟩
    cases List.sublist_nil.mp hsub
  | snoc hseen hstep ih =>
    obtain ⟨m, hinv⟩ := ih
    exact hinv.of_step ⟨_, hseen.run⟩ (fun hx => keyCount_of_exact hx ⟨_, hseen.run⟩) hstep

theorem realTime_of_observed {order : List (AtomEvent ι)} (hr : Routed hash db)
    (h : Observed ((dbSystem hash calls Ticks).restrict Q) (happens hash) (.initial ⟨c, db⟩) labels
      order cfg) {i j : ι} (hprec : Precedes labels i j) :
    order.Pairwise fun e f => ¬ (e.task = j ∧ f.task = i) := by
  induction h with
  | nil => exact .nil
  | @snoc labels order cfg cfg' label hseen hstep ih =>
    rcases precedes_concat hprec with hearlier | ⟨rfl, -⟩
    · rw [List.pairwise_append]
      have hended : ∀ f ∈ happens hash cfg label, f.task ≠ i := by
        rintro f hf rfl
        obtain ⟨before, after, rfl, hi, -⟩ := hearlier
        have hdone := done_of_ended hseen.run
          (hi.imp (List.mem_append_left after) (List.mem_append_left after))
        rw [(mem_happens hf).2.1] at hdone
        cases hdone.1
      exact ⟨ih hearlier, List.pairwise_of_forall_mem_list fun _ _ f hf hef => hended f hf hef.2,
        fun _ _ f hf hef => hended f hf hef.2⟩
    · -- the call of `j` begins only now
      obtain ⟨m, hinv⟩ := orderInv_of_observed hr hseen
      have hnil : eventsOf order j = [] := by
        have htask := hinv.tasks j
        cases hstep with
        | start hidle => rwa [hidle] at htask
      rw [show happens hash cfg (.start j) = [] from rfl, List.append_nil]
      exact List.pairwise_of_forall_mem_list fun e he f _ hef => task_ne_of_eventsOf_nil hnil he hef.1

/-- What happens in a run, in the order in which it happens, is a linearization. The key counts
are vouched for only if the counter of the store is right. -/
theorem linearization_of_run (hr : Routed hash db)
    (h : Run ((dbSystem hash calls Ticks).restrict Q) (.initial ⟨c, db⟩) labels cfg) :
    ∃ order, Observed ((dbSystem hash calls Ticks).restrict Q) (happens hash) (.initial ⟨c, db⟩)
        labels order cfg ∧
      Linearization (DbCall.ReturnsIf (Exact Q db)) calls (db.toMap hash) labels cfg order := by
  obtain ⟨order, hseen⟩ := h.observed (happens hash)
  obtain ⟨m, hinv⟩ := orderInv_of_observed hr hseen
  refine ⟨order, hseen, ⟨m, hinv.legal⟩, hinv.clocks, fun i => (hinv.tasks i).atoms, fun i hi => ?_,
    fun i r hi => ?_, fun i j hprec => realTime_of_observed hr hseen hprec, hinv.undivided⟩
  · have htask := hinv.tasks i
    rwa [hi] at htask
  · have htask := hinv.tasks i
    rw [hi] at htask
    exact htask.2 r rfl

theorem exactTtls_of_observed {order : List (AtomEvent ι)} (hr : Routed hash db)
    (hfits : ∀ a s, Q a s → TtlFits a s)
    (h : Observed ((dbSystem hash calls Ticks).restrict Q) (happens hash) (.initial ⟨c, db⟩) labels
      order cfg) : ExactTtls (db.toMap hash) order := by
  induction h with
  | nil => trivial
  | @snoc labels order cfg cfg' label hseen hstep ih =>
    obtain ⟨m, hinv⟩ := orderInv_of_observed hr hseen
    apply ih.append hinv.legal
    cases hstep with
    | @act i call a k held answer s hi hadm hdoes =>
      have htask := hinv.tasks i
      rw [hi] at htask
      obtain ⟨rfl, st, rfl, he⟩ := htask
      have hothers : ∀ j ≠ i, (.global, .write) ∉ (cfg.status j).held := fun j hj hg =>
        not_admits_of_writer ⟨_, hseen.run⟩ hg (Ne.symm hj) hi hadm
      exact hinv.exactTtls hi he hothers (hfits a cfg.shared hdoes.1)
    | _ => trivial

/-- In a run in which no `set` panics after it has purged entries, and the seconds left fit at every
TTL, from a store whose counter is right, what happens is a linearization of all that the calls
return. -/
theorem linearization_of_careful (hr : Routed hash db) (hcount : db.keyCount = db.stored)
    (h : Run ((dbSystem hash calls Ticks).restrict fun a s => Careful a s ∧ TtlFits a s)
      (.initial ⟨c, db⟩) labels cfg) :
    ∃ order, Observed ((dbSystem hash calls Ticks).restrict fun a s => Careful a s ∧ TtlFits a s)
        (happens hash) (.initial ⟨c, db⟩) labels order cfg ∧
      Linearization DbCall.Returns calls (db.toMap hash) labels cfg order ∧
      ExactTtls (db.toMap hash) order := by
  have hexact : Exact (fun a s => Careful a s ∧ TtlFits a s) db := ⟨fun _ _ hq => hq.1, hcount⟩
  obtain ⟨order, hseen, horder⟩ := linearization_of_run hr h
  refine ⟨order, hseen, { horder with results := fun i r hi => ?_ },
    exactTtls_of_observed hr (fun _ _ hq => hq.2) hseen⟩
  obtain ⟨hatoms, hreturns⟩ := horder.results i r hi
  exact ⟨hatoms, hreturns.returns hexact⟩

end Runs

section Sample

theorem ticks_of_free {ι : Type} {n : ℕ} (status : ι → DbStatus n) (c c' : Clock)
    (hle : c.instant ≤ c'.instant) (hfree : ∀ j, (.global, .write) ∉ (status j).held) :
    Ticks status c c' := ⟨hle, hfree⟩

/-- What a task has returned of INFO. -/
def DbStatus.info {n : ℕ} : DbStatus n → Option (ℕ × ℕ)
  | .done (some (.info i)) => some (i.keyCount, i.memoryEstimateBytes)
  | _ => none

theorem DbStatus.eq_of_info {n keyCount memory : ℕ} {status : DbStatus n}
    (h : DbStatus.info status = some (keyCount, memory)) : ∃ i : DbInfoSnapshot,
      status = .done (some (.info i)) ∧ i.keyCount = keyCount ∧ i.memoryEstimateBytes = memory := by
  unfold DbStatus.info at h
  split at h
  · cases h
    exact ⟨_, rfl, rfl, rfl⟩
  · cases h

instance decidableTtlFits {n : ℕ} : (a : DbAct n) → (s : Clocked n) → Decidable (TtlFits a s)
  | .shard i (.key key .ttl), s => decidable_of_iff
      ((view s.clock.instant (s.db.shards i).toMap key).all fun entry =>
        entry.expireAt.all fun t => secsLeft s.clock t ≤ 2^63 - 1)
      (by simp [TtlFits, DbOp.SecondsFit, Option.all_eq_true])
  | .shard _ (.key _ (.set ..)), _ | .shard _ (.key _ (.setAtMs ..)), _ | .shard _ (.key _ .get), _
  | .shard _ (.key _ .del), _ | .shard _ (.key _ .exists'), _ | .shard _ (.key _ (.expire _)), _
  | .shard _ (.key _ (.expireAtMs _)), _ | .shard _ .keys, _ | .shard _ .flushdb, _
  | .shard _ .infoSnapshot, _ | .shard _ .removeExpired, _ | .shard _ (.snapshotEntries _), _
  | .acquire .., _ | .release .., _ | .now, _ | .applyLenChange .., _ | .loadLen, _
  | .storeLen _, _ => inferInstanceAs (Decidable True)

/-- A key that lives for three seconds, a TTL of it, a DEL of it and of a missing key, and INFO. -/
def besideCalls : Fin 4 → DbCall :=
  ![.op (.set "a" [] (some (3 * 10^9))), .op (.ttl "a"), .op (.del ["b", "a"]), .purge .infoSnapshot]

/-- The DEL begins, the TTL and INFO run beside it, and then the DEL gets its locks. -/
def besideTurns : List (DbTurn (Fin 4)) :=
  [.start Four.first 8, .tick ⟨10, 10⟩, .start Four.third 0, .start Four.second 8,
    .start Four.fourth 8, .go Four.third 12]

def besidePlay : Option (List (Label (Fin 4)) × DbConfig (Fin 4) 0) :=
  dbPlay 0 (fun _ => 0) besideCalls Ticks (fun a s => Careful a s ∧ TtlFits a s) besideTurns

/-- What a task has returned of a TTL. -/
def DbStatus.seconds {n : ℕ} : DbStatus n → Option Int64
  | .done (some (.reply (.seconds (.ok secs)))) => some secs
  | _ => none

theorem beside_facts : (besidePlay.map fun (_, cfg) =>
    (decide (∀ j, (cfg.status j).isRunning = false), DbStatus.seconds (cfg.status 1),
      (DbStatus.info (cfg.status 3)).map Prod.fst)) = some (true, some 3, some 1) := by
  decide +kernel

/-- The key has lost some of its three seconds at the TTL, and INFO counts it although the DEL of it
has begun. -/
theorem linearization_of_careful_beside : ∃ labels cfg order, besidePlay = some (labels, cfg) ∧
    DbStatus.seconds (cfg.status 1) = some 3 ∧
    (∃ i : DbInfoSnapshot, cfg.status 3 = .done (some (.info i)) ∧ i.keyCount = 1) ∧
    Linearization DbCall.Returns besideCalls ((ShardedDatabase.new 0).toMap fun _ => 0) labels cfg
      order ∧
    ExactTtls ((ShardedDatabase.new 0).toMap fun _ => 0) order := by
  obtain ⟨⟨labels, cfg⟩, hplay, hfacts⟩ := Option.map_eq_some_iff.mp beside_facts
  simp only [Prod.mk.injEq, Option.map_eq_some_iff] at hfacts
  obtain ⟨-, hseconds, ⟨keyCount, memory⟩, hinfo, hkeyCount⟩ := hfacts
  obtain ⟨i, hi, hcount, -⟩ := DbStatus.eq_of_info hinfo
  obtain ⟨order, -, horder⟩ := linearization_of_careful
    (fun i key h => absurd (AList.lookup_empty key) h) (stored_new 0).symm
    (run_of_dbPlay ticks_of_free hplay)
  exact ⟨labels, cfg, order, hplay, hseconds, ⟨i, hi, hcount.trans hkeyCount⟩, horder⟩

/-- The second SET purges the dead key and panics, and INFO follows. -/
def lateTurns : List (DbTurn (Fin 3)) := driftTurns ++ [.start Three.third 8]

theorem late_facts : ((driftPlay Ticks lateTurns).map fun (_, cfg) =>
    (DbStatus.info (cfg.status 2), cfg.shared.db.stored)) = some (some (1, 0), 0) := by
  decide +kernel

/-- INFO then reports a key over an empty map, and no order explains that. -/
theorem not_linearizable_late : ∃ (labels : List (Label (Fin 3))) (cfg : DbConfig (Fin 3) 0)
    (i : DbInfoSnapshot),
    Run (dbSystem (fun _ => 0) driftCalls Ticks) (.initial ⟨⟨0, 0⟩, ShardedDatabase.new 0⟩) labels
      cfg ∧
    cfg.status 2 = .done (some (.info i)) ∧ i.keyCount = 1 ∧ cfg.shared.db.stored = 0 ∧
    ∀ order, ¬ Linearization DbCall.Returns driftCalls ((ShardedDatabase.new 0).toMap fun _ => 0)
      labels cfg order := by
  obtain ⟨⟨labels, cfg⟩, hplay, hfacts⟩ := Option.map_eq_some_iff.mp late_facts
  obtain ⟨hinfo, hstored⟩ := Prod.mk.inj hfacts
  obtain ⟨i, hi, hcount, hmemory⟩ := DbStatus.eq_of_info hinfo
  refine ⟨labels, cfg, i, (run_of_dbPlay ticks_of_free hplay).of_restrict, hi, hcount, hstored, ?_⟩
  intro order horder
  obtain ⟨hatoms, hreturns⟩ := horder.results 2 _ hi
  -- one live key takes memory, and INFO found none in use
  rcases hreplies : (eventsOf order 2).map Prod.snd with _ | ⟨reply, _ | ⟨reply', replies⟩⟩
  · rw [hreplies] at hreturns
    exact hreturns
  · rw [hreplies] at hreturns
    cases reply with
    | reply => exact hreturns
    | alive entries =>
      obtain ⟨hbytes, hlength⟩ := hreturns
      rw [hmemory] at hbytes
      rw [hcount] at hlength
      obtain ⟨e, rfl⟩ := List.length_eq_one_iff.mp hlength.symm
      simp only [DbSnapshotEntry.bytes, Database.stringSize, List.map_singleton,
        List.sum_singleton] at hbytes
      omega
  · rw [hreplies] at hreturns
    cases reply <;> exact hreturns

end Sample

end RustKV

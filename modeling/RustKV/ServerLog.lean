import RustKV.LibContracts
import RustKV.ServerSteady

/-! The log and the memory of the server. Whoever may change one of the two owns both: a client that
logs its command, with the engine and the barrier for reading, or the rewrite, with the barrier for
writing. An owner may leave them at odds for a while; it has to settle them before it gives them
back, and a client before its reply. -/
namespace RustKV
open Decimal TimedMap Tasks Prog ServerM Contract

section Custody
variable {ι : Type} [DecidableEq ι] {n : ℕ}

/-- The guards of a client that logs. -/
def LogGuards (held : List (ServerLock n × LockMode)) : Prop :=
  (.aof .rewriteBarrier, .read) ∈ held ∧ (.aof .engine, .write) ∈ held

/-- The guards that allow to change the log and the memory. -/
def Owns (held : List (ServerLock n × LockMode)) : Prop :=
  (.aof .rewriteBarrier, .write) ∈ held ∨ LogGuards held

/-- A replay at the time `T` succeeds and gives a map with the outline `σ`. -/
structure ReplaysTo (T : Clock) (log : List Record) (σ : Outline) : Prop where
  fits : ReplayFits T clear log
  replayed : outline (view T.instant (replay T clear log)) = σ

/-- The file at the path is open and holds a log that has the outline `σ` when it is replayed. -/
structure LogsAs (T : Clock) (path : Path) (s : ServerState ι n) (log : List Record) (σ : Outline) :
    Prop extends ReplaysTo T log σ where
  file : s.files path = some (logBytes log)
  isOpen : s.engineFile = some ⟨path⟩

/-- The log and the memory agree: at the time `T` a replay gives the keys and values in memory and
gives the same keys a deadline. -/
def Settled (T : Clock) (hash : String → UInt64) (path : Path) (s : ServerState ι n) : Prop :=
  ∃ log, LogsAs T path s log (outline (s.kv.db.toMap hash))

/-- The actions before a client writes its record, and after it has executed its command. -/
def ServerAct.Resting : ServerAct n → Prop
  | .kv (.db .now) => True
  | .kv _ | .file (.syncAll _) => False
  | _ => True

/-- What has to hold when an action is next. -/
structure CustodyDuty (T : Clock) (hash : String → UInt64) (path : Path) (a : ServerAct n)
    (held : List (ServerLock n × LockMode)) (s : ServerState ι n) : Prop where
  owned : a.Touches → Owns held
  resting : a.Resting → LogGuards held → Settled T hash path s
  givesBack : Owns held → ¬ Owns (a.use.after held) → Settled T hash path s
  noPanic : a ≠ .panic

/-- What an action does. Who comes to own the log and the memory finds them settled. -/
structure CustodyActs (T : Clock) (hash : String → UInt64) (path : Path) (i : ι) (round : Round)
    (a : ServerAct n) (held : List (ServerLock n × LockMode)) (s : ServerState ι n) (answer : a.Answer)
    (s' : ServerState ι n) : Prop where
  does : s.Does i a (some answer) s'
  succeeds : s.Succeeds a (some answer) s'
  deadlines : ∀ d ∈ a.deadlines hash round s, Distant T d
  before : Steady T hash s
  after : Steady T hash s'
  takesOver : Owns (a.use.after held) → ¬ Owns held → Settled T hash path s

/-- What the others leave. -/
structure CustodyLeaves (T : Clock) (hash : String → UInt64) (held : List (ServerLock n × LockMode))
    (s s' : ServerState ι n) : Prop where
  steady : Steady T hash s → Steady T hash s'
  same : Owns held → Same s s'

/-- The contract of a round. -/
def custody (T : Clock) (hash : String → UInt64) (path : Path) (i : ι) (round : Round) :
    Contract (ServerAct n) ServerAct.Answer (List (ServerLock n × LockMode)) (ServerState ι n) where
  after a held := a.use.after held
  duty := CustodyDuty T hash path
  does a held s answer s' := CustodyActs T hash path i round a held s answer s'
  rely := CustodyLeaves T hash
  rely_refl _ s := ⟨id, fun _ => same_refl s⟩
  rely_trans h h' := ⟨fun hs => h'.steady (h.steady hs), fun ho => (h.same ho).trans (h'.same ho)⟩

section Agreement
variable {s s' : ServerState ι n} {T : Clock} {hash : String → UInt64} {path : Path} {σ : Outline}
  {log : List Record}

omit [DecidableEq ι] in
theorem LogsAs.same (h : LogsAs T path s log σ) (hs : Same s s') : LogsAs T path s' log σ :=
  ⟨h.toReplaysTo, by rw [hs.files]; exact h.file, by rw [hs.engineFile]; exact h.isOpen⟩

omit [DecidableEq ι] in
theorem Settled.same (h : Settled T hash path s) (hs : Same s s') : Settled T hash path s' := by
  obtain ⟨log, h⟩ := h
  refine ⟨log, ?_⟩
  rw [hs.toMap_eq]
  exact h.same hs

/-- A record at the end of the log. -/
theorem ReplaysTo.append {c : Clock} {m : TimedMap String Bytes Instant} {r : Record}
    (h : ReplaysTo T log (outline (view c.instant m))) (h0 : 0 ≤ c.unix) (hT : c.Advances T)
    (hd : r.op.SetsDistant T c m) :
    ReplaysTo T (log ++ [r]) (r.op.outline T (outline (view c.instant m))) := by
  refine ⟨replayFits_append.mpr ⟨h.fits, ?_, trivial⟩, ?_⟩
  · exact fits_replayed h0 hT h.replayed hd
  · rw [replay_append, ← h.replayed]
    exact outline_replayed (h0.trans hT.unix_le) r

end Agreement

section Clearance
variable {held outer : List (ServerLock n × LockMode)} {T : Clock} {hash : String → UInt64}
  {path : Path} {i : ι} {round : Round} {a : ServerAct n} {s s' : ServerState ι n} {α : Type}

/-- An action that does not touch them leaves them. -/
theorem CustodyActs.same {answer : a.Answer} (h : CustodyActs T hash path i round a held s answer s')
    (ha : ¬ a.Touches) : Same s s' := h.before.same h.does h.succeeds ha

/-- A task that owes nothing: what it owns is settled. -/
structure Clear (T : Clock) (hash : String → UInt64) (path : Path)
    (held : List (ServerLock n × LockMode)) (s : ServerState ι n) : Prop where
  steady : Steady T hash s
  settled : Owns held → Settled T hash path s

omit [DecidableEq ι] in
theorem Clear.leaves (h : Clear T hash path held s) (hleaves : CustodyLeaves T hash held s s') :
    Clear T hash path held s' :=
  ⟨hleaves.steady h.steady, fun howns => (h.settled howns).same (hleaves.same howns)⟩

variable (i round) in
/-- An action that touches nothing may come next, and the task owes nothing after it either. -/
theorem Clear.act (h : Clear T hash path held s) (htouches : ¬ a.Touches) (hpanic : a ≠ .panic) :
    (custody T hash path i round).duty a held s ∧
      ∀ answer s', (custody T hash path i round).does a held s answer s' →
        Clear T hash path (a.use.after held) s' := by
  refine ⟨⟨fun ht => absurd ht htouches, fun _ hlog => h.settled (.inr hlog),
    fun howns _ => h.settled howns, hpanic⟩, fun answer s' hacts => ?_⟩
  refine ⟨CustodyActs.after hacts, fun howns => ?_⟩
  -- who comes to own them finds them settled
  have hbefore : Settled T hash path s := by
    by_cases howned : Owns held
    · exact h.settled howned
    · exact CustodyActs.takesOver hacts howns howned
  exact hbefore.same (CustodyActs.same hacts htouches)

/-- The actions that leave the log and the memory as they are. -/
def ServerAct.Idle (a : ServerAct n) : Prop := ¬ a.Touches ∧ a ≠ .panic

theorem idle_acquire (lock : AofLock) (mode : LockMode) :
    (ServerAct.acquire lock mode : ServerAct n).Idle := ⟨id, by intro h; cases h⟩

theorem idle_release (lock : AofLock) (mode : LockMode) :
    (ServerAct.release lock mode : ServerAct n).Idle := ⟨id, by intro h; cases h⟩

theorem idle_writeValue (value : RespValue) : (ServerAct.writeValue value : ServerAct n).Idle :=
  ⟨id, by intro h; cases h⟩

theorem keeps_clear {p : ServerM n α} (hp : p.Only ServerAct.Idle) (h : Clear T hash path held s) :
    (custody T hash path i round).Keeps (fun _ held s => Clear T hash path held s) p held s := by
  apply keeps_only hp _ _ h
  · intro held s s' h hleaves
    exact h.leaves hleaves
  · intro a held s hidle h
    exact h.act i round hidle.1 hidle.2

/-- A part of a round that takes and gives back nothing. -/
theorem keeps_unlocked {p : ServerM n α} (hp : p.Only fun a => a.Idle ∧ a.use = .none)
    (h : Clear T hash path held s) : (custody T hash path i round).Keeps
      (fun _ held' s => held' = held ∧ Clear T hash path held s) p held s := by
  have hkeeps := keeps_only (K := custody T hash path i round)
    (I := fun held' s => held' = held ∧ Clear T hash path held s) hp ?_ ?_ ⟨rfl, h⟩
  · exact hkeeps
  · rintro _ s s' ⟨rfl, h⟩ hleaves
    exact ⟨rfl, h.leaves hleaves⟩
  · rintro a _ s ⟨hidle, huse⟩ ⟨rfl, h⟩
    obtain ⟨hduty, hacts⟩ := h.act i round hidle.1 hidle.2
    refine ⟨hduty, fun answer s' hdoes => ?_⟩
    have hafter := hacts answer s' hdoes
    change a.use.after _ = _ ∧ _
    rw [huse] at hafter ⊢
    exact ⟨rfl, hafter⟩

/-- A part of a round that begins with an action that touches nothing. -/
theorem keeps_clear_bind {f : a.Answer → ServerM n α} {Q : α → List (ServerLock n × LockMode) →
    ServerState ι n → Prop} (hidle : a.Idle) (h : Clear T hash path held s)
    (hf : ∀ answer s, Clear T hash path (a.use.after held) s →
      (custody T hash path i round).Keeps Q (f answer) (a.use.after held) s) :
    (custody T hash path i round).Keeps Q (perform a >>= f) held s := by
  apply keeps_perform_bind
  intro s₁ hleaves
  obtain ⟨hduty, hacts⟩ := (h.leaves hleaves).act i round hidle.1 hidle.2
  exact ⟨hduty, fun answer s₂ hdoes => hf answer s₂ (hacts answer s₂ hdoes)⟩

end Clearance

section Guards
variable {held outer : List (ServerLock n × LockMode)} {T : Clock} {hash : String → UInt64}
  {path : Path} {i : ι} {round : Round} {s s' : ServerState ι n} {J : ServerState ι n → Prop}

/-- The same guards of the log. -/
def SameGuards (held outer : List (ServerLock n × LockMode)) : Prop :=
  ∀ lock mode, (.aof lock, mode) ∈ held ↔ (.aof lock, mode) ∈ outer

theorem SameGuards.logGuards (h : SameGuards held outer) : LogGuards held ↔ LogGuards outer :=
  and_congr (h _ _) (h _ _)

theorem SameGuards.owns (h : SameGuards held outer) : Owns held ↔ Owns outer :=
  or_congr (h _ _) h.logGuards

/-- The actions without a lock of the log. -/
def ServerAct.Within (a : ServerAct n) : Prop :=
  a.use = .none ∨ ∃ lock mode, a.use = .acquire (.db lock) mode ∨ a.use = .release (.db lock) mode

theorem within_kv (a : KvAct n) : (ServerAct.kv a).Within := by
  cases a with
  | stat => exact .inl rfl
  | db a =>
    cases a with
    | acquire lock mode => exact .inr ⟨lock, mode, .inl rfl⟩
    | release lock mode => exact .inr ⟨lock, mode, .inr rfl⟩
    | now | shard | applyLenChange | loadLen | storeLen => exact .inl rfl

theorem SameGuards.after (h : SameGuards held outer) {a : ServerAct n} (ha : a.Within) :
    SameGuards (a.use.after held) outer := by
  intro lock mode
  rw [← h lock mode]
  rcases ha with ha | ⟨lock', mode', ha | ha⟩ <;> rw [ha]
  · exact Iff.rfl
  · exact ⟨fun hmem => (List.mem_cons.mp hmem).resolve_left nofun, List.mem_cons_of_mem _⟩
  · exact List.mem_erase_of_ne nofun

/-- A task holds the guards `outer` of the log, and `J` holds. -/
structure Holding (T : Clock) (hash : String → UInt64) (outer : List (ServerLock n × LockMode))
    (J : ServerState ι n → Prop) (held : List (ServerLock n × LockMode)) (s : ServerState ι n) :
    Prop where
  guards : SameGuards held outer
  steady : Steady T hash s
  holds : J s

/-- What an owner asserts of the log and the memory alone stays while it owns them. -/
def Stable (J : ServerState ι n → Prop) : Prop := ∀ s s', Same s s' → J s → J s'

omit [DecidableEq ι] in
theorem Holding.leaves (howns : Owns outer) (hJ : Stable J) (h : Holding T hash outer J held s)
    (hleaves : CustodyLeaves T hash held s s') : Holding T hash outer J held s' :=
  ⟨h.guards, hleaves.steady h.steady, hJ s s' (hleaves.same (h.guards.owns.mpr howns)) h.holds⟩

omit [DecidableEq ι] in
theorem Holding.mono {J' : ServerState ι n → Prop} (h : Holding T hash outer J held s)
    (hJ : ∀ s, J s → J' s) : Holding T hash outer J' held s := ⟨h.guards, h.steady, hJ s h.holds⟩

omit [DecidableEq ι] in
theorem Holding.clear (h : Holding T hash outer J held s) (hJ : ∀ s, J s → Settled T hash path s) :
    Clear T hash path held s := ⟨h.steady, fun _ => hJ s h.holds⟩

omit [DecidableEq ι] in
/-- An owner may do anything within its guards; a client, some actions only where it has settled
what it owns. -/
theorem Holding.duty (howns : Owns outer) (h : Holding T hash outer J held s) {a : ServerAct n}
    (hwithin : a.Within) (hpanic : a ≠ .panic)
    (hrests : a.Resting → LogGuards outer → Settled T hash path s) :
    CustodyDuty T hash path a held s :=
  ⟨fun _ => h.guards.owns.mpr howns, fun hr hlog => hrests hr (h.guards.logGuards.mp hlog),
    fun _ hno => absurd ((h.guards.after hwithin).owns.mpr howns) hno, hpanic⟩

variable (path i round) in
/-- An action within the guards that touches nothing. -/
theorem Holding.act (howns : Owns outer) (hJ : Stable J) (h : Holding T hash outer J held s)
    {a : ServerAct n} (htouches : ¬ a.Touches) (hwithin : a.Within) (hpanic : a ≠ .panic)
    (hrests : a.Resting → LogGuards outer → Settled T hash path s) :
    (custody T hash path i round).duty a held s ∧
      ∀ answer s', (custody T hash path i round).does a held s answer s' →
        Holding T hash outer J (a.use.after held) s' := by
  refine ⟨h.duty howns hwithin hpanic hrests, fun answer s' hacts => ?_⟩
  exact ⟨h.guards.after hwithin, CustodyActs.after hacts,
    hJ s s' (CustodyActs.same hacts htouches) h.holds⟩

end Guards

section Store
variable {held outer : List (ServerLock n × LockMode)} {T : Clock} {hash : String → UInt64}
  {path : Path} {i : ι} {round : Round} {s s' : ServerState ι n} {α : Type} {σ : Outline}
  {J : ServerState ι n → Prop}

/-- The contract of an operation of the store within a round. -/
abbrev storeCustody (T : Clock) (hash : String → UInt64) (path : Path) (i : ι) (round : Round) :
    Contract (DbAct n) DbAct.Answer (List (ServerLock n × LockMode)) (ServerState ι n) :=
  (custody T hash path i round).comap (R := DbAct.Answer) (fun a => .kv (.db a)) fun _ answer => answer

variable (path i round) in
/-- An action of the store that touches nothing. -/
theorem Holding.dbAct (howns : Owns outer) (hJ : Stable J) (h : Holding T hash outer J held s)
    {a : DbAct n} (htouches : ¬ (ServerAct.kv (.db a)).Touches) (hnow : a ≠ .now) :
    (storeCustody T hash path i round).duty a held s ∧
      ∀ answer s', (storeCustody T hash path i round).does a held s answer s' →
        Holding T hash outer J ((storeCustody T hash path i round).after a held) s' := by
  have hrest : ¬ (ServerAct.kv (.db a)).Resting := by
    cases a with
    | now => exact absurd rfl hnow
    | _ => exact id
  obtain ⟨hduty, hacts⟩ := h.act path i round howns hJ (a := .kv (.db a)) htouches (within_kv _)
    nofun fun hr => absurd hr hrest
  refine ⟨hduty, ?_⟩
  rintro answer s' ⟨answer', hdoes, -⟩
  exact hacts answer' s' hdoes

/-- A part of an operation that begins with an action that touches nothing. -/
theorem keeps_dbAct {Q : α → List (ServerLock n × LockMode) → ServerState ι n → Prop}
    (howns : Owns outer) (hJ : Stable J) {a : DbAct n} {f : a.Answer → DbM n α}
    (htouches : ¬ (ServerAct.kv (.db a)).Touches) (hnow : a ≠ .now)
    (h : Holding T hash outer J held s)
    (hf : ∀ answer held s, Holding T hash outer J held s →
      (storeCustody T hash path i round).Keeps Q (f answer) held s) :
    (storeCustody T hash path i round).Keeps Q (perform a >>= f) held s := by
  apply keeps_perform_bind
  intro s' hleaves
  obtain ⟨hduty, hacts⟩ := (h.leaves howns hJ hleaves).dbAct path i round howns hJ htouches hnow
  exact ⟨hduty, fun answer s'' hdoes => hf answer _ s'' (hacts answer s'' hdoes)⟩

/-- A client that logs holds its guards, and `J` holds. -/
abbrev Logging (T : Clock) (hash : String → UInt64) (J : ServerState ι n → Prop)
    (held : List (ServerLock n × LockMode)) (s : ServerState ι n) : Prop :=
  Holding T hash writeGuards J held s

theorem owns_writeGuards : Owns (writeGuards (n := n)) := by
  simp [Owns, LogGuards, writeGuards]

/-- What is left of the sections of an operation leads to the outline that the log has. -/
structure Underway (T : Clock) (hash : String → UInt64) (path : Path) (σ : Outline)
    (sections : List (String × KeyOp)) (steps : List KeyStep) (s : ServerState ι n) : Prop where
  logs : ∃ log, LogsAs T path s log σ
  ahead : DbOp.sectionsOutline T (sections.drop steps.length) (outline (s.kv.db.toMap hash)) = σ
  counted : (∀ p ∈ sections, p.2 = .del) → ∀ step ∈ steps, ∃ count, step.reply = .count (.ok count)

omit [DecidableEq ι] in
theorem stable_underway (sections : List (String × KeyOp)) (steps : List KeyStep) :
    Stable (Underway (ι := ι) (n := n) T hash path σ sections steps) := by
  rintro s s' hs ⟨⟨log, hlog⟩, hahead, hcounted⟩
  refine ⟨⟨log, hlog.same hs⟩, ?_, hcounted⟩
  rw [hs.toMap_eq]
  exact hahead

omit [DecidableEq ι] in
theorem stable_settled : Stable (Settled (ι := ι) (n := n) T hash path) := fun _ _ hs h => h.same hs

/-- A section on a key is one step towards the outline of the log. -/
theorem Underway.section {sections : List (String × KeyOp)} {steps : List KeyStep} {key : String}
    {op : KeyOp} {locked : Locked op.Result} (h : Underway T hash path σ sections steps s)
    (hnext : sections[steps.length]? = some (key, op))
    (hacts : CustodyActs T hash path i round
      (.kv (.db (.shard (ShardedDatabase.shardForKey hash key) (.key key op)))) held s locked s') :
    Underway T hash path σ sections (steps ++ [⟨key, op, op.wrap locked.result⟩]) s' := by
  have hbefore := hacts.before
  have hd : ∀ d ∈ op.deadline s.clock (view s.clock.instant (s.kv.db.shards
      (ShardedDatabase.shardForKey hash key)).toMap key), Distant T d := fun d hmem =>
    hacts.deadlines d (Option.mem_toList.mpr hmem)
  obtain ⟨locked', hrun, hreply, -, hmap, -⟩ :=
    keySection_spec hbefore.routed hbefore.distant hbefore.later key op hd
  have hdistant := allDistant_shard hbefore.routed hbefore.distant (ShardedDatabase.shardForKey hash key)
  rw [(hdistant.allAlive hbefore.later).view_eq] at hd
  -- the state after the section
  have hstate : locked = locked' ∧ s'.files = s.files ∧ s'.engineFile = s.engineFile ∧
      s'.kv.db.toMap hash = Function.update (s.kv.db.toMap hash) key
        (op.leaves s.clock (s.kv.db.toMap hash key)) := by
    cases hacts.does with
    | @exec _ fault _ w hexec =>
      have hlocked : (op.run s.clock (s.kv.db.shards (ShardedDatabase.shardForKey hash key)) key).1 =
          some locked := congrArg Prod.fst hexec
      have hworld := congrArg Prod.snd hexec
      subst hworld
      refine ⟨Option.some.inj (hlocked.symm.trans hrun), rfl, rfl, hmap⟩
  obtain ⟨rfl, hfiles, hopen, hafter⟩ := hstate
  obtain ⟨⟨log, hlog⟩, hahead, hcounted⟩ := h
  obtain ⟨hlt, hget⟩ := List.getElem?_eq_some_iff.mp hnext
  refine ⟨⟨log, ?_⟩, ?_, fun hdel step hstep => ?_⟩
  · exact ⟨hlog.toReplaysTo, by rw [hfiles]; exact hlog.file, hopen.trans hlog.isOpen⟩
  · have houtline := KeyOp.outline_leaves hbefore.epoch hbefore.later op
      (s.kv.db.toMap hash key) hd
    rw [← hahead, List.drop_eq_getElem_cons hlt, hget, hafter, outline_update, List.length_append]
    change _ = DbOp.sectionsOutline T _ (Function.update _ key (op.outline T _))
    rw [outline_apply, ← houtline]
    rfl
  · rcases List.mem_append.mp hstep with hstep | hstep
    · exact hcounted hdel step hstep
    · obtain rfl : op = .del := hdel (key, op) (List.mem_of_getElem? hnext)
      rw [List.mem_singleton.mp hstep]
      exact ⟨_, congrArg DbReply.count hreply⟩

/-- An operation on keys whose record is written brings the memory to the outline of the log. -/
theorem keeps_operation {sections : List (String × KeyOp)} {p : DbM n α}
    {final : Progress n → α → Prop}
    (hp : p.Follows (stages hash (.keyed sections)) final ⟨.outside, []⟩)
    (h : Logging T hash (Underway T hash path σ sections []) held s) :
    (custody T hash path i round).Keeps (fun x held s => ∃ st, final st x ∧
      Logging T hash (Underway T hash path σ sections st.steps) held s) (onDb p) held s := by
  rw [onDb_eq_lift]
  refine keeps_lift (keeps_of_follows (I := fun st held s =>
    Logging T hash (Underway T hash path σ sections st.steps) held s) hp ?_ ?_ h)
  · exact fun st held s s' h hleaves => h.leaves owns_writeGuards (stable_underway _ _) hleaves
  · intro st a held s hallows h
    have hsame (htouches : ¬ (ServerAct.kv (.db a)).Touches) (hnow : a ≠ .now)
        (hnext : ∀ answer, (st.next a answer).steps = st.steps) :
        (storeCustody T hash path i round).duty a held s ∧
          ∀ answer s', (storeCustody T hash path i round).does a held s answer s' →
            Logging T hash (Underway T hash path σ sections (st.next a answer).steps)
              ((storeCustody T hash path i round).after a held) s' := by
      obtain ⟨hduty, hacts⟩ := h.dbAct path i round owns_writeGuards
        (stable_underway sections st.steps) htouches hnow
      refine ⟨hduty, fun answer s' hdoes => ?_⟩
      rw [hnext answer]
      exact hacts answer s' hdoes
    cases hallows with
    | enter | lock | loadLen | leave | loadLenLocked | unlock | count => exact hsame id nofun fun _ => rfl
    | now hkind => cases hkind
    | storeLen hkind => cases hkind
    | @run mode x call steps hruns =>
      cases call with
      | keys | flushdb | infoSnapshot | removeExpired | snapshotEntries => exact hruns.elim
      | key key op =>
        obtain ⟨hnext, rfl, -⟩ := hruns
        refine ⟨h.duty owns_writeGuards (within_kv _) nofun fun hr => absurd hr id, ?_⟩
        rintro locked s' ⟨_, hacts, rfl⟩
        have hafter := h.guards.after (within_kv (.db (.shard
          (ShardedDatabase.shardForKey hash key) (.key key op))))
        exact ⟨hafter, CustodyActs.after hacts, Underway.section h.holds hnext hacts⟩

/-- The shards that FLUSHDB has cleared, when the log is that of an empty store. -/
structure Clearing (T : Clock) (path : Path) (cleared : List (Fin (n + 1))) (s : ServerState ι n) :
    Prop where
  logs : ∃ log, LogsAs T path s log fun _ => none
  empty : ∀ x ∈ cleared, s.kv.db.shards x = ∅

omit [DecidableEq ι] in
theorem stable_clearing (cleared : List (Fin (n + 1))) :
    Stable (Clearing (ι := ι) T path cleared) := by
  rintro s s' hs ⟨⟨log, hlog⟩, hempty⟩
  refine ⟨⟨log, hlog.same hs⟩, ?_⟩
  rw [hs.shards]
  exact hempty

omit [DecidableEq ι] in
theorem Clearing.settled {s : ServerState ι n} (h : Clearing T path (List.finRange (n + 1)) s) :
    Settled T hash path s := by
  obtain ⟨⟨log, hlog⟩, hempty⟩ := h
  have hclear : s.kv.db.toMap hash = clear := by
    funext key
    rw [ShardedDatabase.toMap, hempty _ (List.mem_finRange _)]
    exact AList.lookup_empty key
  refine ⟨log, ?_⟩
  rw [hclear]
  exact hlog

theorem keeps_flushLoop (shards cleared : List (Fin (n + 1)))
    (h : Logging T hash (Clearing T path cleared) held s) :
    (storeCustody T hash path i round).Keeps
      (fun _ held s => Logging T hash (Clearing T path (cleared ++ shards)) held s)
      (ShardedDatabase.flushLoop shards) held s := by
  induction shards generalizing cleared held s with
  | nil =>
    refine keeps_dbAct (a := .storeLen 0) owns_writeGuards (stable_clearing cleared) id nofun h
      fun _ held s h => ?_
    rw [List.append_nil]
    exact keeps_pure fun s' hleaves => h.leaves owns_writeGuards (stable_clearing cleared) hleaves
  | cons x shards ih =>
    refine keeps_dbAct (a := .acquire (.shard x) .write) owns_writeGuards (stable_clearing cleared)
      id nofun h fun _ held s h => ?_
    apply keeps_perform_bind (a := DbAct.shard x .flushdb)
    intro s₁ hleaves
    have h₁ := h.leaves owns_writeGuards (stable_clearing cleared) hleaves
    refine ⟨h₁.duty owns_writeGuards (within_kv _) nofun fun hr => absurd hr id, ?_⟩
    rintro locked s₂ ⟨locked', hacts, rfl⟩
    -- the section clears its shard, and cannot fail
    have hdoes : locked' = ⟨.ok (), (s₁.kv.db.shards x).len, 0, 0⟩ ∧ s₂.files = s₁.files ∧
        s₂.engineFile = s₁.engineFile ∧
        s₂.kv.db.shards = Function.update s₁.kv.db.shards x ∅ := by
      cases CustodyActs.does hacts with
      | @exec _ fault _ w hexec =>
        have hworld := congrArg Prod.snd hexec
        subst hworld
        exact ⟨(Option.some.inj (congrArg Prod.fst hexec)).symm, rfl, rfl, rfl⟩
    obtain ⟨rfl, hfiles, hopen, hshards⟩ := hdoes
    have h₂ : Logging T hash (Clearing T path (cleared ++ [x]))
        ((ServerAct.kv (.db (.shard x .flushdb))).use.after held) s₂ := by
      obtain ⟨⟨log, hlog⟩, hempty⟩ := h₁.holds
      refine ⟨h₁.guards.after (within_kv _), CustodyActs.after hacts, ⟨⟨log, ?_⟩, fun y hy => ?_⟩⟩
      · exact ⟨hlog.toReplaysTo, by rw [hfiles]; exact hlog.file, hopen.trans hlog.isOpen⟩
      · rw [hshards]
        by_cases hyx : y = x
        · subst hyx
          exact Function.update_self ..
        · rw [Function.update_of_ne hyx]
          refine hempty y ((List.mem_append.mp hy).resolve_right fun hmem => ?_)
          exact hyx (List.mem_singleton.mp hmem)
    refine keeps_dbAct (a := .release (.shard x) .write) owns_writeGuards (stable_clearing _) id
      nofun h₂ fun _ held s h => ?_
    have hrest := ih (cleared ++ [x]) h
    rwa [List.append_assoc] at hrest

theorem keeps_flushdb (h : Logging T hash (Clearing T path []) held s) :
    (custody T hash path i round).Keeps (fun _ held s => Logging T hash (Settled T hash path) held s)
      (onDb ShardedDatabase.flushdb) held s := by
  rw [onDb_eq_lift]
  apply keeps_lift
  refine keeps_dbAct (a := .acquire .global .write) owns_writeGuards (stable_clearing []) id nofun h
    fun _ held s h => ?_
  refine keeps_bind (keeps_flushLoop (List.finRange (n + 1)) [] h) fun outcome held s h => ?_
  refine keeps_dbAct (a := .release .global .write) owns_writeGuards (stable_clearing _) id nofun h
    fun _ held s h => ?_
  refine keeps_pure fun s' hleaves => ?_
  exact (h.leaves owns_writeGuards (stable_clearing _) hleaves).mono fun s hs => hs.settled

end Store

section Execution
variable {held : List (ServerLock n × LockMode)} {T : Clock} {hash : String → UInt64} {path : Path}
  {i : ι} {round : Round} {s s' : ServerState ι n} {α : Type} {σ : Outline}

theorem keeps_stats {p : KvM n α} {J : ServerState ι n → Prop} (hJ : Stable J)
    (hp : p.Only KvAct.OnStats) (h : Logging T hash J held s) :
    (custody T hash path i round).Keeps (fun _ held s => Logging T hash J held s) (onKv p) held s := by
  have honly : (onKv p).Only fun a => ∃ b, a = .kv (.stat b) := by
    refine only_lift hp fun a ha => ?_
    cases a with
    | db a => exact ha.elim
    | stat a => exact ⟨a, rfl⟩
  apply keeps_only honly _ _ h
  · intro held s s' h hleaves
    exact h.leaves owns_writeGuards hJ hleaves
  · rintro _ held s ⟨a, rfl⟩ h
    exact h.act path i round owns_writeGuards hJ id (within_kv _) nofun fun hr => hr.elim

/-- The record of the operation is in the log, and the memory is as it was. -/
def Pending (T : Clock) (hash : String → UInt64) (path : Path) (op : DbOp) (s : ServerState ι n) :
    Prop := ∃ log, LogsAs T path s log (op.outline T (outline (s.kv.db.toMap hash)))

omit [DecidableEq ι] in
theorem stable_pending (op : DbOp) : Stable (Pending (ι := ι) (n := n) T hash path op) := by
  rintro s s' hs ⟨log, hlog⟩
  refine ⟨log, ?_⟩
  rw [hs.toMap_eq]
  exact hlog.same hs

omit [DecidableEq ι] in
theorem underway_of_pending {op : DbOp} {sections : List (String × KeyOp)}
    (hop : ∀ σ, op.outline T σ = DbOp.sectionsOutline T sections σ) (h : Pending T hash path op s) :
    Underway T hash path (op.outline T (outline (s.kv.db.toMap hash))) sections [] s :=
  ⟨h, (hop _).symm, fun _ _ hmem => by cases hmem⟩

omit [DecidableEq ι] in
/-- When all sections are done, the memory has the outline of the log. -/
theorem Underway.settled {sections : List (String × KeyOp)} {steps : List KeyStep}
    (h : Underway T hash path σ sections steps s) (hlen : steps.length = sections.length) :
    Settled T hash path s := by
  obtain ⟨⟨log, hlog⟩, hahead, -⟩ := h
  rw [hlen, List.drop_length] at hahead
  refine ⟨log, ?_⟩
  rw [show outline (s.kv.db.toMap hash) = σ from hahead]
  exact hlog

/-- A command whose record is in the log is executed, and the memory agrees with the log again. -/
theorem keeps_executeCommand {toJson : ServerStatsSnapshot → KvResult String} {cmd : Command}
    {op : DbOp} (hop : cmd.dbOp = some op) (hwrite : isWriteCommand cmd = true)
    (h : Logging T hash (Pending T hash path op) held s) :
    (custody T hash path i round).Keeps (fun _ held s => Logging T hash (Settled T hash path) held s)
      (onKv (executeCommand hash toJson cmd)) held s := by
  -- an operation on one key, and the statistics after it
  have hkey {β : Type} {key : String} {keyOp : KeyOp} {rest : DbOutcome keyOp.Result → KvM n β}
      {held : List (ServerLock n × LockMode)} {s : ServerState ι n}
      (hsections : ∀ σ, op.outline T σ = DbOp.sectionsOutline T [(key, keyOp)] σ)
      (h : Logging T hash (Pending T hash path op) held s)
      (hrest : ∀ outcome, (rest outcome).Only KvAct.OnStats) :
      (custody T hash path i round).Keeps
        (fun _ held s => Logging T hash (Settled T hash path) held s)
        (onKv (KvM.onDb (ShardedDatabase.onShard hash key keyOp) >>= rest)) held s := by
    rw [onKv_bind]
    have hstart : Logging T hash (Underway T hash path _ [(key, keyOp)] []) held s :=
      ⟨h.guards, h.steady, underway_of_pending hsections h.holds⟩
    refine keeps_bind (keeps_operation (follows_onShard key keyOp) hstart) ?_
    rintro outcome held s ⟨st, rfl, h⟩
    exact keeps_stats stable_settled (hrest outcome) (h.mono fun s hs => hs.settled rfl)
  have hcount {β : Type} (field : StatField) (outcome : DbOutcome β) (reply : RespValue) :
      (do KvM.fetchAdd field 1; count outcome; return reply : KvM n RespValue).Only
        KvAct.OnStats :=
    only_bind (only_perform trivial) fun _ => only_bind (only_count outcome) fun _ => only_pure reply
  have hcounted {β : Type} (outcome : DbOutcome β) (reply : RespValue) :
      (do count outcome; return reply : KvM n RespValue).Only KvAct.OnStats :=
    only_bind (only_count outcome) fun _ => only_pure reply
  have hinfo : cmd ≠ .info := by
    rintro rfl
    cases hwrite
  rw [executeCommand, if_neg hinfo, onKv_bind]
  refine keeps_bind (keeps_stats (stable_pending op) (only_perform trivial) h) fun _ held s h => ?_
  cases cmd with
  | ping | get | exists' | keys | ttl | info | unknown => cases hwrite
  | set key value expire =>
    cases hop
    exact hkey (fun _ => rfl) h fun outcome => hcount _ outcome _
  | setPxAt key value ts =>
    cases hop
    exact hkey (fun _ => rfl) h fun outcome => hcount _ outcome _
  | expire key seconds =>
    cases hop
    exact hkey (fun _ => rfl) h fun outcome => hcounted outcome _
  | expireAt key ts =>
    cases hop
    exact hkey (fun _ => rfl) h fun outcome => hcounted outcome _
  | del keys =>
    cases hop
    rw [runCommand, onKv_bind]
    have hstart : Logging T hash (Underway T hash path _ (DbOp.del keys).sections []) held s :=
      ⟨h.guards, h.steady, underway_of_pending (fun _ => rfl) h.holds⟩
    refine keeps_bind (keeps_operation (follows_del keys) hstart) ?_
    rintro outcome held s ⟨st, ⟨-, hcombines⟩, h⟩
    have hdel : ∀ p ∈ (DbOp.del keys).sections, p.2 = .del := by
      intro p hp
      obtain ⟨key, -, rfl⟩ := List.mem_map.mp hp
      rfl
    have hdone := (hcombines (h.holds.counted hdel)).1
    refine keeps_stats stable_settled (hcount _ outcome _) (h.mono fun s hs => hs.settled ?_)
    rw [← hdone, List.length_map]
  | flushDb =>
    cases hop
    rw [runCommand, onKv_bind]
    refine keeps_bind (keeps_flushdb (h.mono fun s hs => ⟨hs, nofun⟩)) fun outcome held s h => ?_
    exact keeps_stats stable_settled
      (only_bind (only_stat (.store .keyCount _)) fun _ => only_pure _) h

end Execution

end Custody

end RustKV

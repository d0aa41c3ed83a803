import RustKV.ServerLog

/-! The rounds of the clients keep the contract of the log. A client that writes takes both guards,
appends its record, executes its command and replies; after the append the log is ahead of the
memory, and before the reply the memory has caught up. -/
namespace RustKV
open Decimal TimedMap Tasks Prog ServerM Contract

section Files
variable {ι : Type} [DecidableEq ι] {n : ℕ} {held outer : List (ServerLock n × LockMode)} {T : Clock}
  {hash : String → UInt64} {path : Path} {i : ι} {round : Round} {s : ServerState ι n} {α β : Type}
  {J : ServerState ι n → Prop}

/-- The steps of a program that stops at an error, where none comes. -/
theorem keeps_andThen {p : ServerM n (IoResult β)} {f : β → ServerM n (IoResult α)}
    {P : IoResult β → List (ServerLock n × LockMode) → ServerState ι n → Prop}
    {Q : IoResult α → List (ServerLock n × LockMode) → ServerState ι n → Prop}
    (hp : (custody T hash path i round).Keeps P p held s)
    (hf : ∀ r held s, P r held s →
      ∃ x, r = .ok x ∧ (custody T hash path i round).Keeps Q (f x) held s) :
    (custody T hash path i round).Keeps Q (andThen p f) held s := by
  apply keeps_bind hp
  intro r held s hP
  obtain ⟨x, rfl, hkeeps⟩ := hf r held s hP
  exact hkeeps

variable (path i round) in
/-- An owner that works on a file finds the files as it has left them. -/
theorem keeps_onFile {a : FileAct} {J' : a.Answer → ServerState ι n → Prop} (howns : Owns outer)
    (hJ : Stable J) (hJ' : ∀ r, Stable (J' r)) (h : Holding T hash outer J held s)
    (hrests : (ServerAct.file (n := n) a).Resting → LogGuards outer →
      ∀ s, J s → Settled T hash path s)
    (hact : ∀ s, J s → J' (FileSystem.exec a s.files).1
      { s with files := (FileSystem.exec a s.files).2 }) :
    (custody T hash path i round).Keeps (fun r held s => Holding T hash outer (J' r) held s)
      (onFile a) held s := by
  apply keeps_perform_bind (a := ServerAct.file a) (f := pure)
  intro s₁ hleaves
  have h₁ := h.leaves howns hJ hleaves
  refine ⟨h₁.duty howns (.inl rfl) nofun fun hr hlog => hrests hr hlog s₁ h₁.holds, ?_⟩
  intro answer s₂ hacts
  obtain ⟨hanswer, hs⟩ := CustodyActs.succeeds hacts
  obtain rfl := Option.some.inj hanswer
  have h₂ : Holding T hash outer (J' (FileSystem.exec a s₁.files).1) held s₂ := by
    refine ⟨h₁.guards, CustodyActs.after hacts, ?_⟩
    rw [hs]
    exact hact s₁ h₁.holds
  exact keeps_pure fun s₃ hleaves => h₂.leaves howns (hJ' _) hleaves

/-- What the engine holds open is what its field says. -/
theorem keeps_engineFile (howns : Owns outer) (hJ : Stable J) (h : Holding T hash outer J held s)
    (hrests : LogGuards outer → ∀ s, J s → Settled T hash path s) :
    (custody T hash path i round).Keeps
      (fun file held s => Holding T hash outer (fun s => J s ∧ s.engineFile = file) held s)
      engineFile held s := by
  have hstable (file : Option File) : Stable fun s : ServerState ι n => J s ∧ s.engineFile = file :=
    fun s s' hs hfile => ⟨hJ s s' hs hfile.1, hs.engineFile.trans hfile.2⟩
  apply keeps_perform_bind (a := ServerAct.engineFile) (f := pure)
  intro s₁ hleaves
  have h₁ := h.leaves howns hJ hleaves
  refine ⟨h₁.duty howns (.inl rfl) nofun fun _ hlog => hrests hlog s₁ h₁.holds, ?_⟩
  intro file s₂ hacts
  have hsame : Same s₁ s₂ := CustodyActs.same hacts id
  have hfile : s₁.engineFile = file := by
    cases CustodyActs.does hacts with
    | exec hexec => exact Option.some.inj (congrArg Prod.fst hexec)
  have h₂ : Holding T hash outer (fun s => J s ∧ s.engineFile = file) held s₂ :=
    ⟨h₁.guards, CustodyActs.after hacts, hJ s₁ s₂ hsame h₁.holds, hsame.engineFile.trans hfile⟩
  exact keeps_pure fun s₃ hleaves => h₂.leaves howns (hstable file) hleaves

/-- The file of an engine that is open. -/
theorem keeps_fileMut {file : File} (howns : Owns outer) (hJ : Stable J)
    (hopen : ∀ s, J s → s.engineFile = some file) (h : Holding T hash outer J held s)
    (hrests : LogGuards outer → ∀ s, J s → Settled T hash path s) :
    (custody T hash path i round).Keeps
      (fun r held s => r = .ok file ∧ Holding T hash outer J held s) AofEngine.fileMut held s := by
  apply keeps_bind (keeps_engineFile howns hJ h hrests)
  intro found held s h
  obtain ⟨hholds, hfound⟩ := h.holds
  rw [hopen s hholds] at hfound
  subst hfound
  exact keeps_pure fun s' hleaves =>
    ⟨rfl, (h.mono fun _ hs => hs.1).leaves howns hJ hleaves⟩

end Files

section Appends
variable {ι : Type} [DecidableEq ι] {n : ℕ} {held : List (ServerLock n × LockMode)} {T : Clock}
  {hash : String → UInt64} {path : Path} {i : ι} {s s' : ServerState ι n} {q : Request}
  {cmd : Command} {op : DbOp} {bytes : Bytes}

/-- The log and the memory agree, and with these bytes the log would be an operation ahead. -/
def Awaiting (T : Clock) (hash : String → UInt64) (path : Path) (op : DbOp) (bytes : Bytes)
    (s : ServerState ι n) : Prop :=
  ∃ log r, bytes = r.bytes ∧ LogsAs T path s log (outline (s.kv.db.toMap hash)) ∧
    ReplaysTo T (log ++ [r]) (op.outline T (outline (s.kv.db.toMap hash)))

omit [DecidableEq ι] in
theorem stable_awaiting : Stable (Awaiting (ι := ι) (n := n) T hash path op bytes) := by
  intro s s' hs h
  obtain ⟨log, r, hbytes, hlog, hnext⟩ := h
  refine ⟨log, r, hbytes, ?_, ?_⟩
  · rw [hs.toMap_eq]
    exact hlog.same hs
  · rw [hs.toMap_eq]
    exact hnext

omit [DecidableEq ι] in
theorem Awaiting.settled (h : Awaiting T hash path op bytes s) : Settled T hash path s := by
  obtain ⟨log, r, -, hlog, -⟩ := h
  exact ⟨log, hlog⟩

omit [DecidableEq ι] in
theorem Awaiting.isOpen (h : Awaiting T hash path op bytes s) : s.engineFile = some ⟨path⟩ := by
  obtain ⟨log, r, -, hlog, -⟩ := h
  exact hlog.isOpen

omit [DecidableEq ι] in
/-- Once the bytes are in the log, the operation is pending. -/
theorem Awaiting.append (h : Awaiting T hash path op bytes s) : Pending T hash path op
    { s with files := s.files.put path ((s.files path).getD [] ++ bytes) } := by
  obtain ⟨log, r, rfl, hlog, hnext⟩ := h
  refine ⟨log ++ [r], hnext, ?_, hlog.isOpen⟩
  change s.files.put path ((s.files path).getD [] ++ r.bytes) path = _
  rw [hlog.file, Option.getD_some, RustKV.put_self, logBytes_append, logBytes_cons, logBytes_nil,
    List.append_nil]

omit [DecidableEq ι] in
/-- A client looks at the clock, and its command would set no deadline but distant ones. -/
theorem awaiting_of_settled (hcmd : parseCommand q.frame = some (.ok cmd)) (hop : cmd.dbOp = some op)
    (hwrite : isWriteCommand cmd = true) (hs : Steady T hash s) (h : Settled T hash path s)
    (hd : ∀ d ∈ (ServerAct.kv (n := n) (.db .now)).deadlines hash (.client q) s, Distant T d) :
    ∃ bytes, commandToRespBytes s.clock cmd = some bytes ∧ Awaiting T hash path op bytes s := by
  obtain ⟨log, hlog⟩ := h
  have hwf : WellFormed cmd := by
    rw [parseCommand_request] at hcmd
    cases hresp : Command.fromResp q.resp with
    | error error =>
      rw [hresp] at hcmd
      cases hcmd
    | ok cmd' =>
      rw [hresp] at hcmd
      cases hcmd
      exact Decoded.wellFormed ⟨_, hresp⟩
  obtain ⟨r, hr⟩ := Option.isSome_iff_exists.mp ((isWriteCommand_logged s.clock hwf).symm.trans hwrite)
  have hview : view s.clock.instant (s.kv.db.toMap hash) = s.kv.db.toMap hash :=
    (hs.distant.allAlive hs.later).view_eq
  have hsets : op.SetsDistant T s.clock (s.kv.db.toMap hash) := by
    intro p hp d hmem
    refine hd d ?_
    simp only [ServerAct.deadlines, hcmd, hop, Option.bind_some, Option.mem_def.mp hp,
      Option.elim_some]
    exact Option.mem_toList.mpr hmem
  obtain ⟨houtline, hdistant⟩ := outline_logged hs.epoch hs.later hwf hr hop hsets
  rw [hview] at houtline
  refine ⟨r.bytes, ?_, log, r, rfl, hlog, ?_⟩
  · rw [commandToRespBytes_eq s.clock cmd hwf.ne_del_nil, hr]
    rfl
  · have happend := ReplaysTo.append (m := s.kv.db.toMap hash) (r := r)
      (by rw [hview]; exact hlog.toReplaysTo) hs.epoch hs.later hdistant
    rw [hview, houtline] at happend
    exact happend

/-- The record of a command that is next is appended. -/
theorem keeps_append (hcmd : parseCommand q.frame = some (.ok cmd)) (hop : cmd.dbOp = some op)
    (hwrite : isWriteCommand cmd = true) (h : Logging T hash (Settled T hash path) held s) :
    (custody T hash path i (.client q)).Keeps
      (fun r held s => r = .ok () ∧ Logging T hash (Pending T hash path op) held s)
      (AofEngine.append cmd) held s := by
  apply keeps_perform_bind (a := ServerAct.kv (.db .now))
  intro s₁ hleaves
  have h₁ := h.leaves owns_writeGuards stable_settled hleaves
  refine ⟨h₁.duty owns_writeGuards (within_kv _) nofun fun _ _ => h₁.holds, ?_⟩
  intro c s₂ hacts
  have hc : c = s₁.clock := by
    cases CustodyActs.does hacts with
    | exec hexec => exact (Option.some.inj (congrArg Prod.fst hexec)).symm
  obtain ⟨bytes, hbytes, hawaiting⟩ :=
    awaiting_of_settled hcmd hop hwrite h₁.steady h₁.holds (CustodyActs.deadlines hacts)
  have h₂ : Logging T hash (Awaiting T hash path op bytes) held s₂ :=
    ⟨h₁.guards, CustodyActs.after hacts,
      stable_awaiting s₁ s₂ (CustodyActs.same hacts id) hawaiting⟩
  rw [hc, hbytes]
  -- the bytes are written to the open log, and then synced
  apply keeps_andThen (keeps_fileMut owns_writeGuards stable_awaiting (fun _ hs => hs.isOpen) h₂
    fun _ _ hs => hs.settled)
  rintro _ held s ⟨rfl, h⟩
  refine ⟨_, rfl, ?_⟩
  have hstable (r : (FileAct.writeAll ⟨path⟩ bytes).Answer) : Stable fun s : ServerState ι n =>
      r = .ok () ∧ Pending T hash path op s :=
    fun s s' hs hr => ⟨hr.1, stable_pending op s s' hs hr.2⟩
  apply keeps_andThen (keeps_onFile path i (.client q) owns_writeGuards stable_awaiting hstable h
    (fun _ _ s hs => hs.settled) fun s hs => ⟨rfl, hs.append⟩)
  intro r held s h
  obtain ⟨rfl, -⟩ := h.holds
  refine ⟨(), rfl, ?_⟩
  have hsync := keeps_onFile path i (.client q) (a := .syncAll ⟨path⟩) owns_writeGuards (hstable _)
    hstable h nofun fun s hs => ⟨rfl, hs.2⟩
  exact hsync.mono fun r held s h => ⟨h.holds.1, h.mono fun _ hs => hs.2⟩

end Appends

section Rounds
variable {ι : Type} [DecidableEq ι] {n : ℕ} {held : List (ServerLock n × LockMode)} {T : Clock}
  {hash : String → UInt64} {path : Path} {i : ι} {round : Round} {s : ServerState ι n} {q : Request}
  {cmd : Command} {toJson : ServerStatsSnapshot → KvResult String}

/-- The actions of the store that leave it as it is. -/
def DbAct.Idle (a : DbAct n) : Prop := ¬ (ServerAct.kv (.db a)).Touches

/-- A client that logs its command begins and ends without debts. -/
theorem keeps_handleWrite {op : DbOp} (hcmd : parseCommand q.frame = some (.ok cmd))
    (hop : cmd.dbOp = some op) (hwrite : isWriteCommand cmd = true) (hs : Steady T hash s) :
    (custody T hash path i (.client q)).Keeps (fun _ held s => Clear T hash path held s)
      (handleWrite hash toJson cmd) [] s := by
  -- the reply, and the guards given back after it
  have hreply (value : RespValue) {held : List (ServerLock n × LockMode)} {s : ServerState ι n}
      (h : Logging T hash (Settled T hash path) held s) :
      (custody T hash path i (.client q)).Keeps (fun _ held s => Clear T hash path held s)
        (do
          let written ← writeValue value
          release .engine .write
          release .rewriteBarrier .read
          return written) held s := by
    apply keeps_clear _ (h.clear fun _ => id)
    refine only_bind (only_perform (idle_writeValue value)) fun _ => ?_
    refine only_bind (only_perform (idle_release .engine .write)) fun _ => ?_
    exact only_bind (only_perform (idle_release .rewriteBarrier .read)) fun _ => only_pure _
  have hstart : Clear T hash path [] s := ⟨hs, by simp [Owns, LogGuards]⟩
  apply keeps_clear_bind (idle_acquire .rewriteBarrier .read) hstart
  intro _ s₁ h₁
  apply keeps_clear_bind (idle_acquire .engine .write) h₁
  intro _ s₂ h₂
  have hlogging : Logging T hash (Settled T hash path) writeGuards s₂ :=
    ⟨fun _ _ => Iff.rfl, h₂.steady, h₂.settled owns_writeGuards⟩
  apply keeps_bind (keeps_append hcmd hop hwrite hlogging)
  rintro _ held s ⟨rfl, h⟩
  apply keeps_bind (keeps_executeCommand hop hwrite h)
  intro response held s h
  exact hreply response h

/-- An operation on one key that does not write. -/
theorem idle_onShard {key : String} {op : KeyOp} (hop : ¬ (ShardCall.key key op).Writes) :
    (ShardedDatabase.onShard (n := n) hash key op).Only DbAct.Idle := by
  refine only_bind (only_perform id) fun _ => only_bind (only_perform id) fun _ => ?_
  refine only_bind (only_perform hop) fun _ => only_bind (only_perform id) fun _ => ?_
  refine only_bind (only_perform id) fun _ => only_bind (only_perform id) fun _ => ?_
  exact only_bind (only_perform id) fun _ => only_pure _

/-- A walk over the shards whose sections do not write. -/
theorem idle_onEachShard {α : Type} {call : ShardCall} {init : α}
    {collect : α → Locked call.Result → α} (hcall : ¬ call.Writes) :
    (ShardedDatabase.onEachShard (n := n) call init collect).Only DbAct.Idle := by
  refine only_forEach fun acc x => ?_
  refine only_bind (only_perform id) fun _ => only_bind (only_perform hcall) fun _ => ?_
  exact only_bind (only_perform id) fun _ => only_bind (only_perform id) fun _ => only_pure _

theorem idle_keys : (ShardedDatabase.keys (n := n)).Only DbAct.Idle := by
  have hloop (shards : List (Fin (n + 1))) (found : List String) :
      (ShardedDatabase.keysLoop shards found).Only DbAct.Idle := by
    induction shards generalizing found with
    | nil => exact only_pure _
    | cons x shards ih =>
      refine only_bind (only_perform id) fun _ => only_bind (only_perform id) fun locked => ?_
      refine only_bind (only_perform id) fun _ => ?_
      obtain ⟨result, before, after, expired⟩ := locked
      rcases result with error | more
      · exact only_pure _
      · exact ih _
  refine only_bind (only_perform id) fun _ => only_bind (hloop _ _) fun _ => ?_
  exact only_bind (only_perform id) fun _ => only_pure _

theorem idle_infoSnapshot : (ShardedDatabase.infoSnapshot (n := n)).Only DbAct.Idle := by
  refine only_bind (only_perform id) fun _ => only_bind (idle_onEachShard id) fun _ => ?_
  exact only_bind (only_perform id) fun _ => only_bind (only_perform id) fun _ => only_pure _

theorem idle_removeExpired : (ShardedDatabase.removeExpired (n := n)).Only DbAct.Idle := by
  refine only_bind (only_perform id) fun _ => only_bind (idle_onEachShard id) fun _ => ?_
  exact only_bind (only_perform id) fun _ => only_bind (only_perform id) fun _ => only_pure _

theorem idle_onStats {α : Type} {p : KvM n α} (hp : p.Only KvAct.OnStats) :
    (onKv p).Only ServerAct.Idle := by
  refine only_lift hp fun a ha => ?_
  cases a with
  | db a => exact ha.elim
  | stat a => exact ⟨id, by intro h; cases h⟩

theorem idle_onDb {α : Type} {p : DbM n α} (hp : p.Only DbAct.Idle) :
    (onDb p).Only ServerAct.Idle := by
  rw [onDb_eq_lift]
  exact only_lift hp fun a ha => ⟨ha, by intro h; cases h⟩

/-- A command that is not logged leaves the memory as it is. -/
theorem idle_executeCommand (hwrite : isWriteCommand cmd = false) :
    (onKv (executeCommand (n := n) hash toJson cmd)).Only ServerAct.Idle := by
  have hkey {β : Type} {key : String} {op : KeyOp} {rest : DbOutcome op.Result → KvM n β}
      (hop : ¬ (ShardCall.key key op).Writes) (hrest : ∀ outcome, (rest outcome).Only KvAct.OnStats) :
      (onKv (KvM.onDb (ShardedDatabase.onShard hash key op) >>= rest)).Only ServerAct.Idle := by
    rw [onKv_bind]
    exact only_bind (idle_onDb (idle_onShard hop)) fun outcome => idle_onStats (hrest outcome)
  have hcounted {β : Type} (outcome : DbOutcome β) (reply : RespValue) :
      (do count outcome; return reply : KvM n RespValue).Only KvAct.OnStats :=
    only_bind (only_count outcome) fun _ => only_pure reply
  have hrun : (onKv (runCommand (n := n) hash toJson cmd)).Only ServerAct.Idle := by
    cases cmd with
    | set | setPxAt | del | expire | expireAt | flushDb => cases hwrite
    | ping | unknown => exact only_pure _
    | get key =>
      exact hkey id fun outcome => only_bind (only_stat (.fetchAdd .getCount 1)) fun _ =>
        hcounted outcome _
    | exists' key => exact hkey id fun outcome => hcounted outcome _
    | ttl key => exact hkey id fun outcome => hcounted outcome _
    | keys =>
      rw [runCommand, onKv_bind]
      exact only_bind (idle_onDb idle_keys) fun _ => only_pure _
    | info =>
      rw [runCommand, onKv_bind]
      refine only_bind (idle_onDb idle_infoSnapshot) fun info => idle_onStats ?_
      refine only_bind (only_perform trivial) fun _ => only_bind (only_perform trivial) fun _ => ?_
      exact only_bind (only_perform trivial) fun _ => only_bind only_snapshot fun _ => only_pure _
  unfold executeCommand
  split_ifs
  · exact hrun
  · rw [onKv_bind]
    exact only_bind (idle_onStats (only_stat (.fetchAdd .totalCommands 1))) fun _ => hrun

/-- A client that handles a frame begins and ends without debts. -/
theorem keeps_handleFrame (hs : Steady T hash s) :
    (custody T hash path i (.client q)).Keeps (fun _ held s => Clear T hash path held s)
      (handleFrame hash toJson true q.frame) [] s := by
  have hstart : Clear T hash path [] s := ⟨hs, by simp [Owns, LogGuards]⟩
  have hreply (value : RespValue) : (writeValue value : ServerM n _).Only ServerAct.Idle :=
    only_perform (idle_writeValue value)
  unfold handleFrame
  rw [parseCommand_request]
  cases hresp : Command.fromResp q.resp with
  | error error => exact keeps_clear (hreply _) hstart
  | ok cmd =>
    have hcmd : parseCommand q.frame = some (.ok cmd) := by
      rw [parseCommand_request, hresp]
    change (custody T hash path i (.client q)).Keeps _ (handleCommand hash toJson true cmd) [] s
    unfold handleCommand
    split_ifs with hwrite
    · rw [Bool.and_true] at hwrite
      have hop : cmd.dbOp.isSome := by
        cases cmd with
        | ping | get | exists' | keys | ttl | info | unknown => cases hwrite
        | set | setPxAt | del | expire | expireAt | flushDb => rfl
      obtain ⟨op, hop⟩ := Option.isSome_iff_exists.mp hop
      exact keeps_handleWrite hcmd hop hwrite hs
    · rw [Bool.and_true, Bool.not_eq_true] at hwrite
      exact keeps_clear (only_bind (idle_executeCommand hwrite) fun _ => hreply _) hstart

/-- A tick of the TTL worker. -/
theorem keeps_ttlTick (hs : Steady T hash s) :
    (custody T hash path i round).Keeps (fun _ held s => Clear T hash path held s)
      (do ttlTick; return .ok () : ServerM n (IoResult Unit)) [] s := by
  refine keeps_clear ?_ ⟨hs, by simp [Owns, LogGuards]⟩
  refine only_bind (only_bind (idle_onDb idle_removeExpired) fun _ => ?_) fun _ => only_pure _
  exact only_bind (idle_onStats (only_stat (.fetchAdd .expiredKeys _))) fun _ =>
    idle_onStats (only_stat (.store .keyCount _))

end Rounds

end RustKV

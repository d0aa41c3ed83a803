import RustKV.ServerSignal

/-! The conversations of the server with its clients. Whatever the tasks do side by side, and
whenever a `select!` drops a `read_value`, each client takes up the frames of its stream one by one,
and answers each of them once, before it takes up the next, with a reply of the kind that the
command calls for. -/
namespace RustKV
open Decimal Tasks Prog ServerM LifeM Contract

section Replies
variable {n : ℕ} {hash : String → UInt64} {toJson : ServerStatsSnapshot → KvResult String}

/-- The replies of a command that has been executed without an error. -/
def Command.Succeeds : Command → RespValue → Prop
  | .set .., reply | .setPxAt .., reply | .flushDb, reply => reply = .simpleString "OK"
  | .get _, reply => reply = .null ∨ ∃ value, reply = bulkResponse value
  | .del _, reply | .ttl _, reply => ∃ count, reply = .integer count
  | .exists' _, reply | .expire .., reply | .expireAt .., reply => reply = .integer 0 ∨ reply = .integer 1
  | .keys, reply => ∃ keys : List String, reply = .array (keys.map fun key => bulkResponse (asBytes key))
  | .info, reply => ∃ json, reply = bulkResponse (asBytes json)
  | .ping, _ | .unknown _, _ => False

/-- The replies of a command. -/
def Command.Answers : Command → RespValue → Prop
  | .ping, reply => reply = .simpleString "PONG"
  | .unknown command, reply => reply = errorResponse ("ERR unknown command '" ++ command ++ "'")
  | cmd, reply => cmd.Succeeds reply ∨ ∃ text, reply = errorResponse text

/-- The replies of a request. One that is not a command is answered with what is wrong about it. -/
def Request.Answers (q : Request) (reply : RespValue) : Prop :=
  match Command.fromResp q.resp with
  | .error error => reply = errorResponse ("ERR " ++ error.toText)
  | .ok cmd => cmd.Answers reply

theorem yields_runCommand (cmd : Command) :
    (runCommand hash toJson cmd : KvM n _).Yields cmd.Answers := by
  have hok (result : KvResult Unit) : (resultToOkResponse result = .simpleString "OK") ∨
      ∃ text, resultToOkResponse result = errorResponse text := by
    cases result with
    | ok => exact .inl rfl
    | error error => exact .inr ⟨_, rfl⟩
  have hflag (result : KvResult Bool) : (flagResponse result = .integer 0 ∨ flagResponse result = .integer 1) ∨
      ∃ text, flagResponse result = errorResponse text := by
    rcases result with error | _ | _
    · exact .inr ⟨_, rfl⟩
    · exact .inl (.inl rfl)
    · exact .inl (.inr rfl)
  cases cmd with
  | ping | unknown => exact yields_pure rfl
  | set | setPxAt =>
    refine yields_bind fun outcome => yields_bind fun _ => yields_bind fun _ => ?_
    exact yields_pure (hok _)
  | flushDb => exact yields_bind fun outcome => yields_bind fun _ => yields_pure (hok _)
  | exists' | expire | expireAt =>
    exact yields_bind fun outcome => yields_bind fun _ => yields_pure (hflag _)
  | get key =>
    refine yields_bind fun outcome => yields_bind fun _ => yields_bind fun _ => yields_pure ?_
    rcases outcome.result with error | _ | value
    · exact .inr ⟨_, rfl⟩
    · exact .inl (.inl rfl)
    · exact .inl (.inr ⟨value, rfl⟩)
  | del keys =>
    refine yields_bind fun outcome => yields_bind fun _ => yields_bind fun _ => yields_pure ?_
    rcases outcome.result with error | count
    · exact .inr ⟨_, rfl⟩
    · exact .inl ⟨_, rfl⟩
  | ttl key =>
    refine yields_bind fun outcome => yields_bind fun _ => yields_pure ?_
    rcases outcome.result with error | count
    · exact .inr ⟨_, rfl⟩
    · exact .inl ⟨_, rfl⟩
  | keys =>
    refine yields_bind fun result => yields_pure ?_
    rcases result with error | keys
    · exact .inr ⟨_, rfl⟩
    · exact .inl ⟨keys, rfl⟩
  | info =>
    refine yields_bind fun info => yields_bind fun _ => yields_bind fun _ => yields_bind fun _ =>
      yields_bind fun stats => yields_pure ?_
    rcases toJson stats with error | json
    · exact .inr ⟨_, rfl⟩
    · exact .inl ⟨json, rfl⟩

theorem yields_executeCommand (cmd : Command) :
    (executeCommand hash toJson cmd : KvM n _).Yields cmd.Answers := by
  unfold executeCommand
  split_ifs
  · exact yields_runCommand cmd
  · exact yields_bind fun _ => yields_runCommand cmd

/-- An append that fails is answered with its error. -/
theorem answers_error {cmd : Command} (h : isWriteCommand cmd) (text : String) :
    cmd.Answers (errorResponse text) := by
  cases cmd with
  | set | setPxAt | del | expire | expireAt | flushDb => exact .inr ⟨text, rfl⟩
  | ping | get | exists' | keys | ttl | info | unknown => cases h

end Replies

section Rounds
variable {n : ℕ} {settings : Settings} {q : Request}

/-- A call owes its client a reply until it has written one, with this result. -/
inductive ReplyStage where
  | owing
  | replied (result : IoResult Unit)

def ReplyStage.next : ReplyStage → (a : ServerAct n) → a.Answer → ReplyStage
  | _, .writeValue _, result => .replied result
  | stage, _, _ => stage

/-- What is pending at each stage of a call. -/
def ReplyStage.pending (q : Request) : ReplyStage → List Request
  | .replied (.ok ()) => []
  | _ => [q]

/-- A call writes one reply, which answers the request. -/
def replying (q : Request) : Protocol (ServerAct n) ServerAct.Answer ReplyStage where
  allows stage a := ∀ value, a = .writeValue value → stage = .owing ∧ q.Answers value
  next := ReplyStage.next

/-- The actions that write no reply. -/
def ServerAct.Silent (a : ServerAct n) : Prop := ∀ value, a ≠ .writeValue value

theorem ServerAct.Silent.next {a : ServerAct n} (ha : a.Silent) (stage : ReplyStage) (r : a.Answer) :
    stage.next a r = stage := by
  cases a with
  | writeValue value => exact absurd rfl (ha value)
  | _ => rfl

theorem follows_silent {α : Type} {p : ServerM n α} {P : α → Prop} {stage : ReplyStage}
    (hp : p.Only ServerAct.Silent) (hyields : p.Yields P) :
    p.Follows (replying q) (fun stage' x => stage' = stage ∧ P x) stage :=
  hp.follows_yields hyields (fun _ ha value heq => absurd heq (ha value)) fun _ r ha => ha.next stage r

theorem silent_of_onFiles {a : ServerAct n} (h : a.OnFiles) : a.Silent := h.quiet.2

theorem only_silent_onKv {α : Type} (p : KvM n α) : (onKv p).Only ServerAct.Silent := by
  induction p with
  | ret x => trivial
  | act a k ih => exact ⟨nofun, ih⟩

/-- The reply, and then the guards. -/
theorem follows_reply {value : RespValue} {f : IoResult Unit → ServerM n (IoResult Unit)}
    (hq : q.Answers value) (hsilent : ∀ r, (f r).Only ServerAct.Silent)
    (hf : ∀ r, (f r).Yields fun result => result = r) :
    (ServerM.writeValue value >>= f).Follows (replying q)
      (fun stage result => stage = .replied result) .owing := by
  refine follows_perform_bind (fun value' heq => ?_) fun r => ?_
  · cases heq
    exact ⟨rfl, hq⟩
  · refine (follows_silent (hsilent r) (hf r)).mono ?_
    rintro stage result ⟨rfl, rfl⟩
    rfl

/-- A call replies once, with its result. -/
theorem Round.follows_replying : ((Round.client q).prog (n := n) settings).Follows (replying q)
    (fun stage result => stage = .replied result) .owing := by
  have hlock {lock : AofLock} {mode : LockMode} : (ServerAct.acquire lock mode : ServerAct n).Silent ∧
      (ServerAct.release lock mode : ServerAct n).Silent := ⟨nofun, nofun⟩
  have hone {value : RespValue} (hq : q.Answers value) :
      (ServerM.writeValue value : ServerM n _).Follows (replying q)
        (fun stage result => stage = .replied result) .owing := by
    refine follows_act (fun value' heq => ?_) fun r => rfl
    cases heq
    exact ⟨rfl, hq⟩
  change (handleFrame settings.hash settings.toJson settings.aofPath.isSome q.frame).Follows _ _ _
  have hparse : parseCommand q.frame = some (match Command.fromResp q.resp with
      | .error error => .error ("ERR " ++ error.toText)
      | .ok cmd => .ok cmd) := by
    rw [parseCommand, q.parses]
    rfl
  rw [handleFrame, hparse]
  cases hcmd : Command.fromResp q.resp with
  | error error =>
    refine hone ?_
    rw [Request.Answers, hcmd]
  | ok cmd =>
    have hanswers {value : RespValue} (h : cmd.Answers value) : q.Answers value := by
      rw [Request.Answers, hcmd]
      exact h
    have hreply {value : RespValue} (h : cmd.Answers value) : (do
        let written ← ServerM.writeValue value
        release .engine .write
        release .rewriteBarrier .read
        return written : ServerM n _).Follows (replying q)
          (fun stage result => stage = .replied result) .owing :=
      follows_reply (hanswers h) (fun _ => ⟨hlock.2, fun _ => ⟨hlock.2, fun _ => trivial⟩⟩)
        fun _ _ _ => rfl
    change (handleCommand _ _ _ cmd).Follows _ _ _
    unfold handleCommand
    split_ifs with hwrite
    · rw [Bool.and_eq_true] at hwrite
      refine follows_perform_bind (fun value heq => absurd heq (hlock.1 value)) fun _ => ?_
      refine follows_perform_bind (fun value heq => absurd heq (hlock.1 value)) fun _ => ?_
      refine follows_bind (follows_silent ((only_append cmd).mono fun _ => silent_of_onFiles)
        (yields_true _)) ?_
      rintro _ (error | _) ⟨rfl, -⟩
      · exact hreply (answers_error hwrite.1 error.text)
      · refine follows_bind (follows_silent (only_silent_onKv _)
          (yields_lift (yields_executeCommand cmd))) ?_
        rintro _ response ⟨rfl, hresponse⟩
        exact hreply hresponse
    · refine follows_bind (follows_silent (only_silent_onKv _)
        (yields_lift (yields_executeCommand cmd))) ?_
      rintro _ response ⟨rfl, hresponse⟩
      exact hone (hanswers hresponse)

end Rounds

section Frames
variable {ι : Type} [DecidableEq ι] {n : ℕ} {s s' : LifeState ι n} {t : LifeTask ι} {i : ι}
  {q : Request} {pending : List Request}

namespace LifeState

/-- The client has answered its requests in order, but for those that are pending. -/
def Talk (s : LifeState ι n) (i : ι) (pending : List Request) : Prop :=
  ∃ answered, s.received i = answered ++ pending ∧
    List.Forall₂ Request.Answers answered (s.server.sent (.client i))

/-- Nothing has been taken up or sent on the connection. -/
structure SameTalk (s s' : LifeState ι n) (i : ι) : Prop where
  received : s'.received i = s.received i
  sent : s'.server.sent (.client i) = s.server.sent (.client i)

omit [DecidableEq ι] in
theorem Talk.same (h : s.Talk i pending) (hs : s.SameTalk s' i) : s'.Talk i pending := by
  obtain ⟨answered, hreceived, hsent⟩ := h
  exact ⟨answered, hs.received.trans hreceived, hs.sent ▸ hsent⟩

omit [DecidableEq ι] in
/-- A request is taken up. -/
theorem Talk.received (h : s.Talk i []) (hreceived : s'.received i = s.received i ++ [q])
    (hsent : s'.server.sent (.client i) = s.server.sent (.client i)) : s'.Talk i [q] := by
  obtain ⟨answered, hanswered, hreplies⟩ := h
  rw [List.append_nil] at hanswered
  exact ⟨answered, by rw [hreceived, hanswered], hsent ▸ hreplies⟩

omit [DecidableEq ι] in
/-- It is answered. -/
theorem Talk.answered {value : RespValue} (h : s.Talk i [q]) (hq : q.Answers value)
    (hreceived : s'.received i = s.received i)
    (hsent : s'.server.sent (.client i) = s.server.sent (.client i) ++ [value]) : s'.Talk i [] := by
  obtain ⟨answered, hanswered, hreplies⟩ := h
  refine ⟨answered ++ [q], by rw [hreceived, hanswered, List.append_nil], ?_⟩
  rw [hsent]
  exact List.rel_append hreplies (.cons hq .nil)

/-- What is sent is sent by a `write_value` to the task's own peer. -/
theorem sent_of_does {server server' : ServerState (LifeTask ι) n} {a : ServerAct n}
    {answer : Option a.Answer} (h : server.Does t a answer server') (j : LifeTask ι) :
    server'.sent j = server.sent j ∨
      j = t ∧ ∃ value, a = .writeValue value ∧ server'.sent t = server.sent t ++ [value] := by
  cases h with
  | fileError | sendError => exact .inl rfl
  | @exec _ fault _ w hexec hpeer =>
    by_cases hj : j = t
    · subst hj
      cases a with
      | writeValue value =>
        cases hexec
        right
        refine ⟨rfl, value, rfl, ?_⟩
        simp [ServerState.put, ServerState.world]
      | kv a =>
        left
        simp only [World.exec] at hexec
        cases hexec
        simp [ServerState.put, ServerState.world]
      | file a =>
        left
        simp only [World.exec] at hexec
        cases hexec
        simp [ServerState.put, ServerState.world]
      | acquire | release | engineFile | setEngineFile | panic =>
        left
        cases hexec
        simp [ServerState.put, ServerState.world]
    · left
      simp [ServerState.put, hj]

/-- An action of another task, or one that neither reads nor writes. -/
theorem Does.sameTalk {a : LoopAct (ServerAct n) (LifeAct ι n)}
    {answer : Option (LoopAct.Answer ServerAct.Answer LifeAct.Answer a)} (h : s.Does t a answer s') :
    s.SameTalk s' i ∨ t = .client i ∧ (a = .outer (.select .readValue) ∨
      ∃ value, a = .inner (.writeValue value) ∨ a = .outer (.own (.writeValue value))) := by
  cases h with
  | call hserver =>
    rcases sent_of_does hserver (.client i) with hsame | ⟨ht, value, rfl, -⟩
    · exact .inl ⟨rfl, hsame⟩
    · exact .inr ⟨ht.symm, .inr ⟨value, .inl rfl⟩⟩
  | own hserver =>
    rcases sent_of_does hserver (.client i) with hsame | ⟨ht, value, rfl, -⟩
    · exact .inl ⟨rfl, hsame⟩
    · exact .inr ⟨ht.symm, .inr ⟨value, .inr rfl⟩⟩
  | changed hreads | closed hreads =>
    left
    cases hreads with
    | none | some => exact ⟨rfl, rfl⟩
  | @frame j q conn =>
    by_cases hj : j = i
    · exact .inr ⟨congrArg _ hj, .inl rfl⟩
    · exact .inl ⟨Function.update_of_ne (Ne.symm hj) _ _, rfl⟩
  | decrConnectedClients =>
    left
    refine ⟨rfl, ?_⟩
    dsimp only
    split_ifs <;> rfl
  | _ => exact .inl ⟨rfl, rfl⟩

/-- A panic has neither read nor written. -/
theorem Does.sameTalk_of_panic {a : LoopAct (ServerAct n) (LifeAct ι n)} (h : s.Does t a none s') :
    s.SameTalk s' i := by
  have hpanic {server : ServerState (LifeTask ι) n} {a : ServerAct n}
      (h : s.server.Does t a none server) : server.sent (.client i) = s.server.sent (.client i) := by
    rcases sent_of_does h (.client i) with hsame | ⟨-, value, rfl, -⟩
    · exact hsame
    · cases h with
      | exec hexec => cases hexec
  cases h with
  | call hserver | own hserver => exact ⟨rfl, hpanic hserver⟩
  | readPanic | aborted => exact ⟨rfl, rfl⟩

/-- What a `select!` around `read_value` does to the talk. -/
theorem Does.talk_of_select {branch : Branch (IoResult (Option Request))} (h : s.Talk i [])
    (hdoes : s.Does (.client i) (.outer (.select .readValue)) (some branch) s') :
    s'.Talk i [] ∧ (∀ q, branch ≠ .other (.ok (some q))) ∨
      ∃ q, branch = .other (.ok (some q)) ∧ s'.Talk i [q] := by
  cases hdoes with
  | changed hreads | closed hreads =>
    left
    cases hreads with
    | none | some => exact ⟨h.same ⟨rfl, rfl⟩, fun _ => nofun⟩
  | @frame _ q conn =>
    right
    exact ⟨q, rfl, h.received (Function.update_self ..) rfl⟩
  | hangup | readError | socketError => exact .inl ⟨h.same ⟨rfl, rfl⟩, fun _ => nofun⟩

/-- A reply that is sent answers the request that is pending; one that fails does not. -/
theorem Talk.written {value : RespValue} {result : IoResult Unit} (h : s.Talk i [q])
    (hq : q.Answers value)
    (hdoes : s.Does (.client i) (.inner (.writeValue value)) (some result) s') :
    s'.Talk i ((ReplyStage.replied result).pending q) := by
  cases hdoes with
  | call hserver =>
    cases hserver with
    | sendError => exact h.same ⟨rfl, rfl⟩
    | exec hexec =>
      cases hexec
      exact h.answered hq rfl (by simp [ServerState.put, ServerState.world])

end LifeState

end Frames

section Contracts
variable {ι : Type} [DecidableEq ι] {n : ℕ} {settings : Settings} {s s' : LifeState ι n}
  {t : LifeTask ι} {i : ι} {q : Request} {pending : List Request}

/-- A client owes at most one reply, and none when it waits. -/
def TalkDuty (s : LifeState ι n) (i : ι) (a : LoopAct (ServerAct n) (LifeAct ι n)) : Prop :=
  ∃ pending, s.Talk i pending ∧ pending.length ≤ 1 ∧ ((∃ source, a = .outer (.select source)) → pending = [])

def conversing (t : LifeTask ι) : Contract (LoopAct (ServerAct n) (LifeAct ι n))
    (LoopAct.Answer ServerAct.Answer LifeAct.Answer) (List (ServerLock n × LockMode))
    (LifeState ι n) where
  after a held := (LifeAct.use a).after held
  duty a _ s := ∀ i, t = .client i → TalkDuty s i a
  does a _ s r s' := s.Does t a (some r) s'
  rely _ s s' := ∀ i, t = .client i → s.SameTalk s' i
  rely_refl _ _ _ _ := ⟨rfl, rfl⟩
  rely_trans h h' i hi :=
    ⟨(h' i hi).received.trans (h i hi).received, (h' i hi).sent.trans (h i hi).sent⟩

/-- What is pending when a client has ended. -/
def Parted (i : ι) (result : IoResult Unit) (s : LifeState ι n) : Prop :=
  ∃ pending, s.Talk i pending ∧ pending.length ≤ 1 ∧ (result = .ok () → pending = [])

theorem talk_stable {held : List (ServerLock n × LockMode)} (h : s.Talk i pending)
    (hrely : (conversing (.client i)).rely held s s') : s'.Talk i pending := h.same (hrely i rfl)

/-- A call answers the request that is pending. -/
theorem keeps_conversing_call (h : s.Talk i [q]) : (conversing (.client i)).Keeps
    (fun result held s => held = [] ∧ s.Talk i ((ReplyStage.replied result).pending q))
    (call ((Round.client q).prog settings)) [] s := by
  refine keeps_lift ?_
  refine (keeps_of_follows (I := fun st held s => st.1 = held ∧ s.Talk i (st.2.pending q))
    (follows_prod Round.follows_prog Round.follows_replying) ?_ ?_ ⟨rfl, h⟩).mono ?_
  · rintro st held s s' ⟨rfl, htalk⟩ hrely
    exact ⟨rfl, htalk.same (hrely i rfl)⟩
  · rintro ⟨guards, stage⟩ a held s ⟨-, hreply⟩ ⟨rfl, htalk⟩
    refine ⟨fun j hj => ?_, ?_⟩
    · cases hj
      refine ⟨_, htalk, ?_, fun hselect => ?_⟩
      · unfold ReplyStage.pending
        split <;> simp
      · obtain ⟨source, heq⟩ := hselect
        cases heq
    · rintro r s' ⟨r', hdoes, rfl⟩
      refine ⟨rfl, ?_⟩
      by_cases ha : a.Silent
      · refine (congrArg (fun st : ReplyStage => s'.Talk i (st.pending q)) (ha.next stage r')).mpr ?_
        rcases hdoes.sameTalk with hsame | ⟨-, heq | ⟨value, heq | heq⟩⟩
        · exact htalk.same hsame
        · cases heq
        · exact absurd (LoopAct.inner.inj heq) (ha value)
        · cases heq
      · obtain ⟨value, rfl⟩ : ∃ value, a = .writeValue value := by simpa [ServerAct.Silent] using ha
        obtain ⟨rfl, hanswers⟩ := hreply value rfl
        exact htalk.written hanswers hdoes
  · rintro result held s ⟨⟨guards, stage⟩, ⟨rfl, rfl⟩, rfl, htalk⟩
    exact ⟨rfl, htalk⟩

/-- One action of the loop that neither reads nor waits. -/
theorem keeps_conversing_outer {o : LifeAct ι n} (ho : ∀ source, o ≠ .select source)
    (hown : ∀ a, o ≠ .own a) (h : s.Talk i pending) (hlength : pending.length ≤ 1) :
    (conversing (.client i)).Keeps (fun _ held s => held = [] ∧ s.Talk i pending) (outer o) [] s := by
  intro s₁ hrely
  have htalk := talk_stable h hrely
  refine ⟨fun j hj => ?_, fun r s₂ hdoes s₃ hrely' => ⟨?_, talk_stable ?_ hrely'⟩⟩
  · cases hj
    refine ⟨pending, htalk, hlength, ?_⟩
    rintro ⟨source, heq⟩
    exact absurd (LoopAct.outer.inj heq) (ho source)
  · cases o with
    | own a => exact absurd rfl (hown a)
    | _ => rfl
  · rcases hdoes.sameTalk with hsame | ⟨-, heq | ⟨value, heq | heq⟩⟩
    · exact htalk.same hsame
    · exact absurd (LoopAct.outer.inj heq) (ho _)
    · cases heq
    · exact absurd (LoopAct.outer.inj heq) (hown _)

/-- The loop of a client. -/
theorem keeps_conversing_handleClient (rounds : ℕ) (h : s.Talk i []) : (conversing (.client i)).Keeps
    (fun result held s => held = [] ∧ Parted i result s) (handleClient settings rounds) [] s := by
  have hduty {s : LifeState ι n} (hs : s.Talk i []) (a : LoopAct (ServerAct n) (LifeAct ι n)) :
      ∀ j, LifeTask.client i = .client j → TalkDuty s j a := by
    rintro _ ⟨⟩
    exact ⟨[], hs, Nat.zero_le _, fun _ => rfl⟩
  have hdone {s : LifeState ι n} (hs : s.Talk i []) (result : IoResult Unit) : (conversing (.client i)).Keeps
      (fun result held s => held = [] ∧ Parted i result s) (pure result) [] s :=
    keeps_pure fun s' hrely => ⟨rfl, [], talk_stable hs hrely, Nat.zero_le _, fun _ => rfl⟩
  refine keeps_selectLoop (I := fun s => s.Talk i []) (fun _ => rfl) (fun s s' => talk_stable) (fun s hs => hduty hs _)
    (fun s hs => hduty hs _) ?_ ?_ ?_ rounds h
  · intro s s' hs hdoes
    rcases LifeState.Does.talk_of_select hs hdoes with ⟨hs', -⟩ | ⟨q, heq, -⟩
    · exact hdone hs' _
    · cases heq
  · intro s s' hs hdoes
    rcases LifeState.Does.talk_of_select hs hdoes with ⟨hs', -⟩ | ⟨q, heq, -⟩
    · refine (keeps_conversing_outer (by simp) (by simp) hs' (Nat.zero_le _)).mono ?_
      rintro sent held s₁ ⟨rfl, hs₁⟩
      exact ⟨rfl, fun _ => hdone hs₁ _, fun _ => hs₁⟩
    · cases heq
  · intro item s s' hs hdoes
    rcases LifeState.Does.talk_of_select hs hdoes with ⟨hs', hnone⟩ | ⟨q, heq, hs'⟩
    · rcases item with error | _ | q
      · exact keeps_pure fun s₁ hrely => ⟨rfl, hdone (talk_stable hs' hrely) _⟩
      · exact keeps_pure fun s₁ hrely => ⟨rfl, hdone (talk_stable hs' hrely) _⟩
      · exact absurd rfl (hnone q)
    · cases heq
      refine keeps_bind (keeps_conversing_call hs') ?_
      rintro (error | _) _ s₁ ⟨rfl, hs₁⟩
      · refine keeps_pure fun s₂ hrely => ⟨rfl, ?_⟩
        refine fun s₃ hrely' => ⟨rfl, [q], ?_, ?_, ?_⟩
        · exact talk_stable (talk_stable hs₁ hrely) hrely'
        · exact le_rfl
        · intro hok
          cases hok
      · exact keeps_pure fun s₂ hrely => ⟨rfl, talk_stable hs₁ hrely⟩

/-- The programs of all tasks. -/
theorem LifeCall.keeps_conversing (c : LifeCall ι) (h : ∀ i, c.task = .client i → s.Talk i []) :
    (conversing c.task).Keeps (fun result _ s => ∀ i, c.task = .client i → Parted i result s)
      (c.prog settings : LifeM ι n _) [] s := by
  have hfree (hno : ∀ i, c.task ≠ .client i) : (conversing c.task).Keeps
      (fun result _ s => ∀ i, c.task = .client i → Parted i result s)
      (c.prog settings : LifeM ι n _) [] s :=
    keeps_of_free (fun a held s i hi => absurd hi (hno i)) (fun x held s i hi => absurd hi (hno i)) _
  obtain ⟨task, rounds⟩ := c
  cases task with
  | main | worker => exact hfree fun i => nofun
  | client i =>
    refine keeps_bind (keeps_conversing_outer (by simp) (by simp) (h i rfl) (Nat.zero_le _)) ?_
    rintro _ _ s ⟨rfl, hs⟩
    refine keeps_bind (keeps_conversing_outer (by simp) (by simp) hs (Nat.zero_le _)) ?_
    rintro _ _ s ⟨rfl, hs⟩
    refine keeps_bind (keeps_conversing_handleClient rounds hs) ?_
    rintro result _ s ⟨rfl, pending, hs, hlength, hok⟩
    refine keeps_bind (keeps_conversing_outer (by simp) (by simp) hs hlength) ?_
    rintro _ _ s ⟨rfl, hs⟩
    refine keeps_pure fun s' hrely j hj => ?_
    cases hj
    exact ⟨pending, talk_stable hs hrely, hlength, hok⟩

end Contracts

section Streams
variable {ι : Type} [DecidableEq ι] {n : ℕ} {s s' : LifeState ι n} {t : LifeTask ι} {i : ι}

namespace Connection

/-- Some reads, after which nothing more is in the buffer than has been read. -/
structure Takes (conn conn' : Connection) (read : List Bytes) : Prop where
  stream : conn.stream = read ++ conn'.stream
  fits : conn'.buffer.length ≤ isizeMax
  size : conn'.maxFrameSize = conn.maxFrameSize

theorem Absorbs.takes {conn conn' : Connection} (h : conn.Absorbs conn')
    (hb : conn.buffer.length ≤ isizeMax) :
    ∃ read, conn.Takes conn' read ∧ conn'.buffer = conn.buffer ++ read.flatten := by
  induction h with
  | refl conn => exact ⟨[], ⟨rfl, hb, rfl⟩, (List.append_nil _).symm⟩
  | @read m seg buffer stream conn' _ _ _ hlimit _ _ ih =>
    obtain ⟨read, ⟨hstream, hfits, hsize⟩, hbuffer⟩ := ih hlimit
    refine ⟨seg :: read, ⟨congrArg (seg :: ·) hstream, hfits, hsize⟩, ?_⟩
    rw [hbuffer, List.flatten_cons, List.append_assoc]

theorem readValue_takes {conn conn' : Connection} {outcome : Option (IoResult (Option Bytes))}
    (h : conn.readValue = (outcome, conn')) (hb : conn.buffer.length ≤ isizeMax) :
    ∃ read, conn.Takes conn' read ∧
      Handled conn.maxFrameSize (conn.buffer ++ read.flatten) outcome conn'.buffer := by
  obtain ⟨read, stream', buffer', hconn, hstream, hfits, hhandled⟩ :=
    readLoop_handled conn.maxFrameSize conn.stream conn.buffer hb
  change readLoop conn.maxFrameSize conn.stream conn.buffer = _ at h
  rw [h] at hconn hhandled
  dsimp only at hconn
  subst hconn
  exact ⟨read, ⟨hstream, hfits, rfl⟩, hhandled⟩

end Connection

/-- The requests taken up and the bytes in the buffer are the bytes that have been read. -/
structure Receives (sends : List Bytes) (maxFrameSize : ℕ) (requests : List Request)
    (conn : Connection) : Prop where
  bytes : ∃ read, sends = read ++ conn.stream ∧
    read.flatten = (requests.map Request.frame).flatten ++ conn.buffer
  fits : conn.buffer.length ≤ isizeMax
  size : conn.maxFrameSize = maxFrameSize
  small : ∀ q ∈ requests, q.frame.length ≤ maxFrameSize

variable {sends : List Bytes} {maxFrameSize : ℕ} {requests : List Request} {conn conn' : Connection}

/-- Bytes that come into the buffer. -/
theorem Receives.absorbs (h : Receives sends maxFrameSize requests conn) (habsorbs : conn.Absorbs conn') :
    Receives sends maxFrameSize requests conn' := by
  obtain ⟨read, htakes, hbuffer⟩ := habsorbs.takes h.fits
  obtain ⟨before, hbefore, hbytes⟩ := h.bytes
  refine ⟨⟨before ++ read, ?_, ?_⟩, htakes.fits, htakes.size.trans h.size, h.small⟩
  · rw [hbefore, htakes.stream, List.append_assoc]
  · rw [List.flatten_append, hbytes, hbuffer, List.append_assoc]

/-- A `read_value` that hands on no request. -/
theorem Receives.readValue {outcome : Option (IoResult (Option Bytes))}
    (h : Receives sends maxFrameSize requests conn) (hread : conn.readValue = (outcome, conn'))
    (hnone : ∀ frame, outcome ≠ some (.ok (some frame))) :
    Receives sends maxFrameSize requests conn' := by
  obtain ⟨read, htakes, hhandled⟩ := Connection.readValue_takes hread h.fits
  obtain ⟨before, hbefore, hbytes⟩ := h.bytes
  have hkept : conn.buffer ++ read.flatten = conn'.buffer := by
    rcases outcome with _ | _ | _ | frame
    · exact hhandled
    · exact hhandled
    · exact hhandled.1.trans hhandled.2.symm
    · exact absurd rfl (hnone frame)
  refine ⟨⟨before ++ read, ?_, ?_⟩, htakes.fits, htakes.size.trans h.size, h.small⟩
  · rw [hbefore, htakes.stream, List.append_assoc]
  · rw [List.flatten_append, hbytes, ← hkept, List.append_assoc]

/-- One that does. -/
theorem Receives.frame {q : Request} (h : Receives sends maxFrameSize requests conn)
    (hread : conn.readValue = (some (.ok (some q.frame)), conn')) :
    Receives sends maxFrameSize (requests ++ [q]) conn' := by
  obtain ⟨read, htakes, hbytes', hsmall, -⟩ := Connection.readValue_takes hread h.fits
  obtain ⟨before, hbefore, hbytes⟩ := h.bytes
  refine ⟨⟨before ++ read, ?_, ?_⟩, htakes.fits, htakes.size.trans h.size, ?_⟩
  · rw [hbefore, htakes.stream, List.append_assoc]
  · rw [List.flatten_append, hbytes, List.append_assoc, hbytes']
    simp
  · rw [List.forall_mem_append]
    refine ⟨h.small, ?_⟩
    rw [List.forall_mem_singleton, ← h.size]
    exact hsmall

/-- The frames taken up are the first ones of the stream. -/
theorem Receives.prefix_of_isSplit (h : Receives sends maxFrameSize requests conn)
    {words : List Bytes} (hwords : Connection.IsSplit sends.flatten words) :
    requests.map Request.frame <+: words := by
  obtain ⟨read, hread, hbytes⟩ := h.bytes
  have hvalues : List.Forall₂ Derives (requests.map Request.resp) (requests.map Request.frame) := by
    rw [List.forall₂_map_left_iff, List.forall₂_map_right_iff, List.forall₂_same]
    intro q _
    obtain ⟨w, rest, hframe, hlength, hd⟩ := derives_of_parseResp (parseRespOrPanic_ok q.parses).1
    have hrest : rest = [] := by
      rw [hframe, List.length_append] at hlength
      exact List.eq_nil_of_length_eq_zero (by omega)
    rw [hframe, hrest, List.append_nil]
    exact hd
  rw [hread, List.flatten_append, hbytes, List.append_assoc] at hwords
  exact Connection.prefix_of_isSplit hvalues hwords

/-- Every step keeps what has been received. -/
theorem Receives.does {a : LoopAct (ServerAct n) (LifeAct ι n)}
    {answer : Option (LoopAct.Answer ServerAct.Answer LifeAct.Answer a)}
    (h : Receives sends maxFrameSize (s.received i) (s.connection i)) (hdoes : s.Does t a answer s') :
    Receives sends maxFrameSize (s'.received i) (s'.connection i) := by
  have hupdate {j : ι} {conn : Connection} (hsame : j = i → Receives sends maxFrameSize (s.received i) conn) :
      Receives sends maxFrameSize (s.received i) (Function.update s.connection j conn i) := by
    by_cases hj : j = i
    · subst hj
      rw [Function.update_self]
      exact hsame rfl
    · rw [Function.update_of_ne (Ne.symm hj)]
      exact h
  cases hdoes with
  | changed hreads | closed hreads =>
    cases hreads with
    | none => exact h
    | some habsorbs =>
      refine hupdate fun hj => ?_
      subst hj
      exact h.absorbs habsorbs
  | @frame j q conn hread =>
    by_cases hj : j = i
    · subst hj
      dsimp only
      rw [Function.update_self, Function.update_self]
      exact h.frame hread
    · dsimp only
      rw [Function.update_of_ne (Ne.symm hj), Function.update_of_ne (Ne.symm hj)]
      exact h
  | hangup hread | readError hread =>
    refine hupdate fun hj => ?_
    subst hj
    exact h.readValue hread fun _ => nofun
  | _ => exact h

end Streams

section Runs
variable {ι : Type} [DecidableEq ι] {n : ℕ} {settings : Settings} {cfg cfg' : LifeConfig ι n}
  {label : Label (LifeTask ι)} {i : ι}

/-- Every client keeps to its conversation. -/
structure Conversing (sends : ι → List Bytes) (maxFrameSize : ℕ) (cfg : LifeConfig ι n) : Prop where
  keeps : AllKeep (fun t _ => conversing t) (fun t _ result _ s => ∀ i, t = .client i → Parted i result s)
    (fun _ s (_ : List Unit) => s) cfg []
  owes : ∀ i, ∃ pending, cfg.shared.Talk i pending ∧ pending.length ≤ 1
  settled : ∀ i, cfg.status (.client i) = .idle ∨ cfg.status (.client i) = .done (some (.ok ())) →
    cfg.shared.Talk i []
  receives : ∀ i, Receives (sends i) maxFrameSize (cfg.shared.received i) (cfg.shared.connection i)

variable {sends : ι → List Bytes} {maxFrameSize : ℕ}

/-- What another task does, or what happens around the tasks. -/
theorem sameTalk_of_step (hstep : Step (lifeSystem settings) cfg label cfg')
    (hi : label.task ≠ some (.client i)) : cfg.shared.SameTalk cfg'.shared i := by
  have hdoes {t : LifeTask ι} {a : LoopAct (ServerAct n) (LifeAct ι n)}
      {answer : Option (LoopAct.Answer ServerAct.Answer LifeAct.Answer a)} {s : LifeState ι n}
      (ht : t ≠ .client i) (hdoes : cfg.shared.Does t a answer s) : cfg.shared.SameTalk s i := by
    rcases hdoes.sameTalk with hsame | ⟨heq, -⟩
    · exact hsame
    · exact absurd heq ht
  cases hstep with
  | start | finish => exact ⟨rfl, rfl⟩
  | act _ _ h | panic _ _ h => exact hdoes (fun ht => hi (congrArg some ht)) h
  | environment henv =>
    cases henv with
    | @server server _ hserver =>
      refine ⟨rfl, ?_⟩
      change server.sent _ = _
      rw [hserver]
    | send | close | ended => exact ⟨rfl, rfl⟩

theorem receives_of_step (hstep : Step (lifeSystem settings) cfg label cfg')
    (h : Receives (sends i) maxFrameSize (cfg.shared.received i) (cfg.shared.connection i)) :
    Receives (sends i) maxFrameSize (cfg'.shared.received i) (cfg'.shared.connection i) := by
  cases hstep with
  | start | finish => exact h
  | act _ _ hdoes | panic _ _ hdoes => exact h.does hdoes
  | environment henv =>
    cases henv with
    | server | send | close | ended => exact h

theorem Conversing.step (h : Conversing sends maxFrameSize cfg)
    (hstep : Step (lifeSystem settings) cfg label cfg') : Conversing sends maxFrameSize cfg' := by
  have hkeeps : AllKeep (fun t _ => conversing t)
      (fun t _ result _ s => ∀ i, t = .client i → Parted i result s)
      (fun _ s (_ : List Unit) => s) cfg' [] := by
    refine h.keeps.step (fun _ _ _ _ => rfl) hstep ?_ ?_ ?_
    · rintro t c rfl ⟨rfl, -⟩ hshared
      refine c.keeps_conversing fun i hi => ?_
      rw [hshared]
      refine h.settled i (.inl ?_)
      cases hstep with
      | start hidle => rwa [hi] at hidle
    · intro t c a k held r hlabel hi hadm hdoes
      exact hdoes
    · rintro t c p held hi ht j rfl
      exact sameTalk_of_step hstep ht
  refine ⟨hkeeps, fun i => ?_, fun i hi => ?_, fun i => receives_of_step hstep (h.receives i)⟩
  · by_cases hl : label.task = some (.client i)
    · obtain ⟨pending, htalk, hlength⟩ := h.owes i
      cases hstep with
      | environment => cases hl
      | start | finish => exact ⟨pending, htalk, hlength⟩
      | @panic t c a k held s' hi hadm hdoes => exact ⟨pending, htalk.same hdoes.sameTalk_of_panic, hlength⟩
      | @act t c a k held r s' hi hadm hdoes =>
        obtain rfl : t = .client i := Option.some.inj hl
        -- the state after an action is that before the next one, or that at the end
        have hnext := hkeeps (.client i) c (k r) _ (Config.set_status_self ..)
        cases hp : k r with
        | ret result =>
          rw [hp] at hnext
          obtain ⟨pending, htalk, hlength, -⟩ := hnext _ ((conversing _).rely_refl _ _) i rfl
          exact ⟨pending, htalk, hlength⟩
        | act b k' =>
          rw [hp] at hnext
          obtain ⟨pending, htalk, hlength, -⟩ := (hnext _ ((conversing _).rely_refl _ _)).1 i rfl
          exact ⟨pending, htalk, hlength⟩
    · obtain ⟨pending, htalk, hlength⟩ := h.owes i
      exact ⟨pending, htalk.same (sameTalk_of_step hstep hl), hlength⟩
  · by_cases hl : label.task = some (.client i)
    · cases hstep with
      | environment => cases hl
      | start | act | panic =>
        obtain rfl := Option.some.inj hl
        rw [Config.set_status_self] at hi
        rcases hi with hi | hi <;> cases hi
      | @finish t c result held hrunning =>
        obtain rfl : t = .client i := Option.some.inj hl
        rw [Config.set_status_self] at hi
        unfold System.finished at hi
        have hagain : (lifeSystem (ι := ι) (n := n) settings).again (.client i) result = false := rfl
        rw [hagain, if_neg Bool.false_ne_true] at hi
        rcases hi with hi | hi
        · cases hi
        · cases hi
          obtain ⟨pending, htalk, -, hok⟩ :=
            h.keeps (.client i) c _ held hrunning _ ((conversing _).rely_refl _ _) i rfl
          rw [hok rfl] at htalk
          exact htalk
    · rw [hstep.status_eq hl] at hi
      exact (h.settled i hi).same (sameTalk_of_step hstep hl)

variable {server : ServerState (LifeTask ι) n}

theorem conversing_of_reachable (hnew : ∀ i, server.sent (.client i) = [])
    (h : Reachable (lifeSystem settings) (.started server sends maxFrameSize) cfg) :
    Conversing sends maxFrameSize cfg := by
  have htalk (i : ι) : (LifeState.started server sends maxFrameSize).Talk i [] := by
    refine ⟨[], rfl, ?_⟩
    change List.Forall₂ _ [] (server.sent (.client i))
    rw [hnew i]
    exact .nil
  refine h.invariant (I := Conversing sends maxFrameSize) ?_ fun _ _ _ _ hcfg hstep => hcfg.step hstep
  refine ⟨fun t c p held hi => ?_, fun i => ⟨[], htalk i, Nat.zero_le _⟩, fun i _ => htalk i, fun i => ?_⟩
  · cases hi
  · exact ⟨⟨[], rfl, rfl⟩, Nat.zero_le _, rfl, fun q hq => by cases hq⟩

/-- What a client that waits for a request, or has ended without an error, is at. -/
def LifeStatus.Resting : LifeStatus ι n → Prop
  | .idle | .done (some (.ok ())) | .running _ (.act (.outer (.select _)) _) _ => True
  | _ => False

/-- No request is lost, made up or answered out of turn. Whatever the tasks do side by side, and
whenever a `read_value` is dropped for the signal: the requests that a client has taken up and the
bytes in its buffer are the bytes read so far, and the frames of the requests are the first ones of
the stream; they are answered one by one, each with a reply of its kind, but for the one that is
pending while a call is on, or after a failed write. -/
theorem requests_answered (hnew : ∀ i, server.sent (.client i) = [])
    (h : Reachable (lifeSystem settings) (.started server sends maxFrameSize) cfg) (i : ι) :
    (∃ read, sends i = read ++ (cfg.shared.connection i).stream ∧ read.flatten =
      ((cfg.shared.received i).map Request.frame).flatten ++ (cfg.shared.connection i).buffer) ∧
    (∀ words, Connection.IsSplit (sends i).flatten words →
      (cfg.shared.received i).map Request.frame <+: words) ∧
    (∀ q ∈ cfg.shared.received i, q.frame.length ≤ maxFrameSize) ∧
    ∃ answered pending, cfg.shared.received i = answered ++ pending ∧
      List.Forall₂ Request.Answers answered (cfg.shared.server.sent (.client i)) ∧
      pending.length ≤ 1 ∧ (LifeStatus.Resting (cfg.status (.client i)) → pending = []) := by
  have hconversing := conversing_of_reachable hnew h
  have hreceives := hconversing.receives i
  refine ⟨hreceives.bytes, fun words => hreceives.prefix_of_isSplit, hreceives.small, ?_⟩
  have hrest {pending : List Request} (htalk : cfg.shared.Talk i pending) (hlength : pending.length ≤ 1)
      (hresting : LifeStatus.Resting (cfg.status (.client i)) → pending = []) :
      ∃ answered pending, cfg.shared.received i = answered ++ pending ∧
        List.Forall₂ Request.Answers answered (cfg.shared.server.sent (.client i)) ∧
        pending.length ≤ 1 ∧ (LifeStatus.Resting (cfg.status (.client i)) → pending = []) := by
    obtain ⟨answered, hreceived, hreplies⟩ := htalk
    exact ⟨answered, pending, hreceived, hreplies, hlength, hresting⟩
  by_cases hresting : LifeStatus.Resting (cfg.status (.client i))
  · suffices htalk : cfg.shared.Talk i [] from hrest htalk (Nat.zero_le _) fun _ => rfl
    unfold LifeStatus.Resting at hresting
    split at hresting
    · exact hconversing.settled i (.inl ‹_›)
    · exact hconversing.settled i (.inr ‹_›)
    · rename_i c source k held hi
      obtain ⟨pending, htalk, -, hselect⟩ :=
        (hconversing.keeps (.client i) c _ held hi _ ((conversing _).rely_refl _ _)).1 i rfl
      rw [hselect ⟨source, rfl⟩] at htalk
      exact htalk
    · exact hresting.elim
  · obtain ⟨pending, htalk, hlength⟩ := hconversing.owes i
    exact hrest htalk hlength fun h => absurd h hresting

end Runs

section Sample

theorem served_facts : (living (fun _ _ => ([] : List Unit)) servingMoves).any (fun o =>
    LifeStatus.waits (o.2.2.status (.client 0)) &&
      decide ((o.2.2.shared.server.sent (.client 0)).length = 1)) = true := by decide +kernel

/-- The client has had its reply and waits for more. -/
theorem requests_answered_served : ∃ labels seen cfg,
    living (fun _ _ => ([] : List Unit)) servingMoves = some (labels, seen, cfg) ∧
      (cfg.shared.server.sent (.client 0)).length = 1 ∧
      List.Forall₂ Request.Answers (cfg.shared.received 0) (cfg.shared.server.sent (.client 0)) := by
  obtain ⟨⟨labels, seen, cfg⟩, hrun, hfacts⟩ := (Option.any_eq_true ..).mp served_facts
  rw [Bool.and_eq_true, decide_eq_true_eq] at hfacts
  have hobserved := observed_living (by simp) hrun
  obtain ⟨c, source, k, held, hi⟩ := LifeStatus.running_of_waits hfacts.1
  obtain ⟨-, -, -, answered, pending, hreceived, hanswers, -, hpending⟩ :=
    requests_answered (fun _ => rfl) ⟨labels, hobserved.run⟩ 0
  rw [hpending (by rw [hi]; trivial), List.append_nil] at hreceived
  exact ⟨labels, seen, cfg, hrun, hfacts.2, hreceived ▸ hanswers⟩

end Sample

end RustKV

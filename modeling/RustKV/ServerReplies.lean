import RustKV.AofRuns
import RustKV.RespRoundTrip

/-! The replies on one connection. A client that decodes them in turn finds one for each request,
unless a reply repeats a text of the client that contains CRLF, or a request makes its task panic. -/
namespace RustKV
open Decimal TimedMap ServerM

section Texts

/-- A text without a carriage return, byte for byte. -/
theorem ne_cr_of_all {s : Bytes} (h : s.all (fun x => x != 13) = true) : ∀ x ∈ s, x ≠ 13 := by
  intro x hx
  simpa using List.all_eq_true.mp h x hx

theorem noCrlf_append_left {s t : Bytes} (hs : ∀ x ∈ s, x ≠ 13) : NoCrlf (s ++ t) ↔ NoCrlf t := by
  induction s with
  | nil => rfl
  | cons x s ih =>
    obtain ⟨hx, hs⟩ := List.forall_mem_cons.mp hs
    have hpre : ¬ crlf <+: x :: (s ++ t) := fun h => hx (List.cons_prefix_cons.mp h).1.symm
    rw [← ih hs, NoCrlf, NoCrlf, List.cons_append, List.infix_cons_iff, not_or,
      and_iff_right hpre]

theorem noCrlf_append_right {s t : Bytes} (ht : ∀ x ∈ t, x ≠ 13 ∧ x ≠ 10) :
    NoCrlf (s ++ t) ↔ NoCrlf s := by
  induction s with
  | nil => exact iff_of_true (noCrlf_of_forall fun x hx => (ht x hx).1) (by decide)
  | cons x s ih =>
    have hpre : crlf <+: x :: (s ++ t) ↔ crlf <+: x :: s := by
      refine List.cons_prefix_cons.trans (Iff.trans (and_congr_right fun _ => ?_)
        List.cons_prefix_cons.symm)
      cases s with
      | cons => simp
      | nil =>
        cases t with
        | nil => rfl
        | cons y t => simpa using (ht y List.mem_cons_self).2.symm
    rw [NoCrlf, NoCrlf, List.cons_append, List.infix_cons_iff, List.infix_cons_iff, hpre, not_or,
      not_or]
    exact and_congr_right fun _ => ih

end Texts

section Errors
variable {α β : Type}

/-- The texts of the errors contain no CRLF. -/
def CleanErrors (p : KvResult α) : Prop := ∀ error, p = .error error → NoCrlf (asBytes error.toText)

theorem cleanErrors_ok (a : α) : CleanErrors (.ok a) := nofun

theorem cleanErrors_pure (a : α) : CleanErrors (pure a) := nofun

theorem cleanErrors_bind {p : KvResult α} {f : α → KvResult β} (hp : CleanErrors p)
    (hf : ∀ a, p = .ok a → CleanErrors (f a)) : CleanErrors (p >>= f) := by
  cases p with
  | error e =>
    rintro error ⟨⟩
    exact hp e rfl
  | ok a => exact hf a rfl

theorem noCrlf_invalidCommand (message : String) :
    NoCrlf (asBytes (KvError.invalidCommand message).toText) ↔ NoCrlf (asBytes message) := by
  have htext : (KvError.invalidCommand message).toText = "invalid command: " ++ message := rfl
  rw [htext, asBytes_append]
  exact noCrlf_append_left (ne_cr_of_all rfl)

theorem cleanErrors_invalid {message : String} (h : NoCrlf (asBytes message)) :
    CleanErrors (invalidCommand message : KvResult α) := by
  rintro error ⟨⟩
  exact (noCrlf_invalidCommand message).mpr h

/-- A fixed text. -/
theorem cleanErrors_fixed {message : String} (h : ∀ x ∈ asBytes message, x ≠ 13) :
    CleanErrors (invalidCommand message : KvResult α) := cleanErrors_invalid (noCrlf_of_forall h)

theorem cleanErrors_mapM {f : α → KvResult β} (hf : ∀ a, CleanErrors (f a)) (as : List α) :
    CleanErrors (as.mapM f) := by
  induction as with
  | nil => exact cleanErrors_pure []
  | cons a as ih =>
    rw [List.mapM_cons]
    exact cleanErrors_bind (hf a) fun _ _ => cleanErrors_bind ih fun _ _ => cleanErrors_pure _

section Arguments
variable {args : List Bytes} {command label : String}

theorem cleanErrors_expectArity {expected : ℕ} (h : ∀ x ∈ asBytes command, x ≠ 13) :
    CleanErrors (expectArity args expected command) := by
  have hnumber (k : ℕ) : ∀ x ∈ asBytes (toString k), x ≠ 13 :=
    fun x hx => (asBytes_toString_int_mem k x hx).1
  unfold expectArity
  split_ifs
  · exact cleanErrors_ok ()
  · refine cleanErrors_fixed fun x hx => ?_
    simp only [asBytes_append, List.mem_append] at hx
    rcases hx with (((hx | hx) | hx) | hx) | hx
    · exact h x hx
    · exact (show ∀ x ∈ asBytes " expects ", x ≠ 13 from ne_cr_of_all rfl) x hx
    · exact hnumber _ x hx
    · exact (show ∀ x ∈ asBytes " argument(s), got ", x ≠ 13 from ne_cr_of_all rfl) x hx
    · exact hnumber _ x hx

theorem cleanErrors_argToStr {arg : Bytes} (h : ∀ x ∈ asBytes label, x ≠ 13) :
    CleanErrors (argToStr arg label) := by
  unfold argToStr
  split
  · refine cleanErrors_invalid ?_
    rw [asBytes_append]
    exact (noCrlf_append_left h).mpr (by decide +kernel)
  · exact cleanErrors_ok _

theorem cleanErrors_parseU64Arg {arg : Bytes} (h : ∀ x ∈ asBytes label, x ≠ 13) :
    CleanErrors (parseU64Arg arg label) := by
  refine cleanErrors_bind (cleanErrors_argToStr h) fun text _ => ?_
  split
  · refine cleanErrors_invalid ?_
    rw [asBytes_append]
    exact (noCrlf_append_left h).mpr (by decide +kernel)
  · exact cleanErrors_ok _

theorem cleanErrors_respToArgs (resp : RespFrame) : CleanErrors (respToArgs resp) := by
  have hinline (line : String) : CleanErrors (inlineLineToArgs line) := by
    unfold inlineLineToArgs
    dsimp only
    split_ifs
    · exact cleanErrors_fixed (ne_cr_of_all rfl)
    · exact cleanErrors_ok _
  have harg (value : RespFrame) : CleanErrors (respValueToArg value) := by
    cases value with
    | simpleString | bulkString => exact cleanErrors_ok _
    | _ => exact cleanErrors_fixed (ne_cr_of_all rfl)
  cases resp with
  | array values => exact cleanErrors_mapM harg values
  | simpleString line => exact hinline line
  | bulkString bytes =>
    unfold respToArgs
    dsimp only
    split
    · exact cleanErrors_fixed (ne_cr_of_all rfl)
    · exact hinline _
  | _ => exact cleanErrors_fixed (ne_cr_of_all rfl)

/-- A command of so many arguments, the first of which is a key. -/
theorem cleanErrors_keyed {expected : ℕ} {f : String → KvResult β}
    (hcommand : ∀ x ∈ asBytes command, x ≠ 13) (hlabel : ∀ x ∈ asBytes label, x ≠ 13)
    (hf : ∀ key, CleanErrors (f key)) : CleanErrors (do
      expectArity args expected command
      let key ← argToOwnedString (argAt args 1) label
      f key) :=
  cleanErrors_bind (cleanErrors_expectArity hcommand) fun _ _ =>
    cleanErrors_bind (cleanErrors_argToStr hlabel) fun key _ => hf key

end Arguments

section Echoes
variable {args : List Bytes}

/-- The arguments of a SET whose last two are an option that is not supported, here in upper case,
and a number. -/
def UnsupportedOption (args : List Bytes) (option : String) : Prop :=
  args.length = 5 ∧ ∃ key text amount, argToOwnedString (argAt args 1) "SET key" = .ok key ∧
    argToStr (argAt args 3) "SET expire option" = .ok text ∧
    parseU64Arg (argAt args 4) "SET expire duration" = .ok amount ∧
    option = text.toUpper ∧ option ≠ "EX" ∧ option ≠ "PX" ∧ option ≠ "PXAT"

def unsupportedOption (option : String) : KvError :=
  .invalidCommand ("unsupported SET expire option: " ++ option)

theorem noCrlf_unsupportedOption (option : String) :
    NoCrlf (asBytes (unsupportedOption option).toText) ↔ NoCrlf (asBytes option) := by
  rw [unsupportedOption, noCrlf_invalidCommand, asBytes_append]
  exact noCrlf_append_left (ne_cr_of_all rfl)

theorem bind_of_ok {p : KvResult α} {f : α → KvResult β} {a : α} (h : p = .ok a) :
    p >>= f = f a := by
  rw [h]
  rfl

theorem error_of_bind {p : KvResult α} {f : α → KvResult β} {error : KvError}
    (h : p >>= f = .error error) : p = .error error ∨ ∃ a, p = .ok a ∧ f a = .error error := by
  cases p with
  | error e =>
    cases h
    exact .inl rfl
  | ok a => exact .inr ⟨a, rfl, h⟩

theorem parseSet_unsupported {option : String} (h : UnsupportedOption args option) :
    parseSet args = .error (unsupportedOption option) := by
  obtain ⟨hlen, key, text, amount, hkey, htext, hamount, rfl, hex, hpx, hpxat⟩ := h
  rw [parseSet, if_neg (by omega), bind_of_ok hkey, if_pos hlen, bind_of_ok htext,
    bind_of_ok hamount]
  split
  · exact absurd ‹_› hex
  · exact absurd ‹_› hpx
  · exact absurd ‹_› hpxat
  · rfl

/-- The only error of a SET that repeats a text is the one about its option. -/
theorem parseSet_error {error : KvError} (h : parseSet args = .error error) :
    NoCrlf (asBytes error.toText) ∨
      ∃ option, UnsupportedOption args option ∧ error = unsupportedOption option := by
  have hkey : CleanErrors (argToOwnedString (argAt args 1) "SET key") :=
    cleanErrors_argToStr (ne_cr_of_all rfl)
  have htext : CleanErrors (argToStr (argAt args 3) "SET expire option") :=
    cleanErrors_argToStr (ne_cr_of_all rfl)
  have hamount : CleanErrors (parseU64Arg (argAt args 4) "SET expire duration") :=
    cleanErrors_parseU64Arg (ne_cr_of_all rfl)
  rw [parseSet] at h
  split_ifs at h with hform hlen
  · exact .inl (cleanErrors_fixed (ne_cr_of_all rfl) error h)
  · rcases error_of_bind h with h | ⟨key, hk, h⟩
    · exact .inl (hkey error h)
    rcases error_of_bind h with h | ⟨text, ht, h⟩
    · exact .inl (htext error h)
    rcases error_of_bind h with h | ⟨amount, ha, h⟩
    · exact .inl (hamount error h)
    split at h
    · cases h
    · cases h
    · cases h
    · rename_i hex hpx hpxat
      cases h
      exact .inr ⟨_, ⟨hlen, key, text, amount, hk, ht, ha, rfl, hex, hpx, hpxat⟩, rfl⟩
  · rcases error_of_bind h with h | ⟨key, -, h⟩
    · exact .inl (hkey error h)
    · cases h

/-- No other form repeats a text in its errors. -/
theorem cleanErrors_parseNamed {name normalized : String} (h : normalized ≠ "SET") :
    CleanErrors (parseNamed args name normalized) := by
  unfold parseNamed
  split
  · exact cleanErrors_bind (cleanErrors_expectArity (ne_cr_of_all rfl)) fun _ _ => cleanErrors_pure _
  · exact absurd rfl h
  · exact cleanErrors_keyed (ne_cr_of_all rfl) (ne_cr_of_all rfl) fun _ => cleanErrors_pure _
  · unfold parseDel
    split_ifs
    · exact cleanErrors_fixed (ne_cr_of_all rfl)
    · exact cleanErrors_bind (cleanErrors_mapM (fun _ => cleanErrors_argToStr (ne_cr_of_all rfl)) _)
        fun _ _ => cleanErrors_pure _
  · exact cleanErrors_keyed (ne_cr_of_all rfl) (ne_cr_of_all rfl) fun _ => cleanErrors_pure _
  · unfold parseKeys
    split_ifs
    · exact cleanErrors_ok _
    · exact cleanErrors_ok _
    · exact cleanErrors_fixed (ne_cr_of_all rfl)
  · exact cleanErrors_keyed (ne_cr_of_all rfl) (ne_cr_of_all rfl) fun _ =>
      cleanErrors_bind (cleanErrors_parseU64Arg (ne_cr_of_all rfl)) fun _ _ => cleanErrors_pure _
  · exact cleanErrors_keyed (ne_cr_of_all rfl) (ne_cr_of_all rfl) fun _ =>
      cleanErrors_bind (cleanErrors_parseU64Arg (ne_cr_of_all rfl)) fun _ _ => cleanErrors_pure _
  · exact cleanErrors_keyed (ne_cr_of_all rfl) (ne_cr_of_all rfl) fun _ => cleanErrors_pure _
  · exact cleanErrors_bind (cleanErrors_expectArity (ne_cr_of_all rfl)) fun _ _ => cleanErrors_pure _
  · exact cleanErrors_bind (cleanErrors_expectArity (ne_cr_of_all rfl)) fun _ _ => cleanErrors_pure _
  · exact cleanErrors_ok _

/-- The texts of a request that its reply repeats: the name of an unknown command, and in upper case
the option of a SET that is not supported. -/
def Echoed (resp : RespFrame) (text : String) : Prop :=
  Command.fromResp resp = .ok (.unknown text) ∨
    ∃ args name, respToArgs resp = .ok args ∧ argToStr (argAt args 0) "command" = .ok name ∧
      name.toUpper = "SET" ∧ UnsupportedOption args text

theorem fromResp_unsupported {resp : RespFrame} {name option : String}
    (hargs : respToArgs resp = .ok args) (hname : argToStr (argAt args 0) "command" = .ok name)
    (hset : name.toUpper = "SET") (h : UnsupportedOption args option) :
    Command.fromResp resp = .error (unsupportedOption option) := by
  have hne : args.isEmpty = false := by
    cases args with
    | nil => cases h.1
    | cons => rfl
  rw [Command.fromResp, bind_of_ok hargs, if_neg (by simp [hne]), bind_of_ok hname]
  dsimp only
  rw [hset]
  exact parseSet_unsupported h

/-- An error text contains CRLF just if the request has put it there. -/
theorem fromResp_error {resp : RespFrame} {error : KvError}
    (h : Command.fromResp resp = .error error) : NoCrlf (asBytes error.toText) ↔
      ∀ text, Echoed resp text → NoCrlf (asBytes text) := by
  constructor
  · rintro hclean text (hunknown | ⟨args, name, hargs, hname, hset, hoption⟩)
    · rw [h] at hunknown
      cases hunknown
    · rw [fromResp_unsupported hargs hname hset hoption] at h
      cases h
      exact (noCrlf_unsupportedOption text).mp hclean
  · intro hechoes
    rw [Command.fromResp] at h
    rcases error_of_bind h with h | ⟨args, hargs, h⟩
    · exact cleanErrors_respToArgs resp error h
    split_ifs at h
    · exact cleanErrors_fixed (ne_cr_of_all rfl) error h
    rcases error_of_bind h with h | ⟨name, hname, h⟩
    · exact cleanErrors_argToStr (ne_cr_of_all rfl) error h
    dsimp only at h
    by_cases hset : name.toUpper = "SET"
    · rw [hset] at h
      rcases parseSet_error h with hclean | ⟨option, hoption, rfl⟩
      · exact hclean
      · exact (noCrlf_unsupportedOption option).mpr
          (hechoes option (.inr ⟨args, name, hargs, hname, hset, hoption⟩))
    · exact cleanErrors_parseNamed hset error h

end Echoes

end Errors

section Turns
variable {n : ℕ}

/-- A request, and the server that it meets. -/
structure Turn (n : ℕ) where
  visit : Visit
  world : World n

def World.withSent (w : World n) (sent : List RespValue) : World n := { w with sent := sent }

/-- The server before anything is written to the connection. -/
def Turn.start (t : Turn n) : World n := t.world.withSent []

/-- The value that the task of the client writes to its connection, if it writes exactly one and
goes on. -/
def Turn.reply (hash : String → UInt64) (toJson : ServerStatsSnapshot → KvResult String) (aof : Bool)
    (t : Turn n) : Option RespValue :=
  match (handleFrame hash toJson aof t.visit.request.frame).run
      (World.exec t.visit.clock t.visit.fault) t.start with
  | (some (.ok ()), w) =>
    match w.sent with
    | [value] => some value
    | _ => none
  | _ => none

/-- Each request has one reply, and what is written to the connection is decoded to the replies. -/
def InStep (hash : String → UInt64) (toJson : ServerStatsSnapshot → KvResult String) (aof : Bool)
    (turns : List (Turn n)) : Prop :=
  ∃ values, turns.mapM (Turn.reply hash toJson aof) = some values ∧
    parseAll frameSize (values.map encodeResp).flatten = some (.ok values)

/-- The command gets past the log. -/
def Turn.Executes (aof : Bool) (t : Turn n) (cmd : Command) : Prop :=
  isWriteCommand cmd → aof → t.visit.appendError = none ∧ t.world.engineFile.isSome

/-- The reply repeats no CRLF of the request, and the deadline that the command sets, if any, fits
in an `Instant`. -/
structure Turn.Answerable (hash : String → UInt64) (aof : Bool) (t : Turn n) : Prop where
  echoes : ∀ text, Echoed t.visit.request.resp text → NoCrlf (asBytes text)
  fits : ∀ cmd, Command.fromResp t.visit.request.resp = .ok cmd → t.Executes aof cmd →
    cmd.Fits t.visit.clock (t.world.kv.db.toMap hash)

end Turns

section Replies
variable {n : ℕ} {hash : String → UInt64} {toJson : ServerStatsSnapshot → KvResult String} {c : Clock}
  {m : TimedMap String Bytes Instant}

theorem lineSafe_respond (op : DbOp) : LineSafe (respond (op.spec c m).1) := by
  have hflag (flag : Bool) : LineSafe (flagResponse (.ok flag)) := by
    cases flag <;> exact .integer _
  cases op with
  | set | setAtMs | flushdb => exact .simpleString "OK" (by decide +kernel)
  | get key =>
    cases hview : view c.instant m key with
    | none =>
      simp only [DbOp.spec, DbOp.onKey, hview]
      exact .null
    | some entry =>
      simp only [DbOp.spec, DbOp.onKey, hview]
      exact .bulkString _
  | del | ttl => exact .integer _
  | exists' | expire | expireAtMs => exact hflag _
  | keys =>
    refine .array _ fun value hvalue => ?_
    obtain ⟨key, -, rfl⟩ := List.mem_map.mp hvalue
    exact .bulkString _

/-- A reply is safe unless it repeats the name of an unknown command. -/
theorem lineSafe_of_replies (hjson : ∀ stats, ∃ json, toJson stats = .ok json) {cmd : Command}
    {reply : RespValue} (h : Replies toJson c m cmd reply) :
    LineSafe reply ↔ ∀ name, cmd = .unknown name → NoCrlf (asBytes name) := by
  have hop {op : DbOp} (ho : cmd.dbOp = some op) : LineSafe reply := by
    have hreply : reply = respond (op.spec c m).1 := by simpa only [Replies, ho] using h
    exact hreply ▸ lineSafe_respond op
  cases cmd with
  | ping =>
    rw [show reply = _ from h]
    exact iff_of_true (.simpleString "PONG" (by decide +kernel)) fun _ hname => by cases hname
  | info =>
    obtain ⟨stats, rfl⟩ := h
    obtain ⟨json, hj⟩ := hjson stats
    rw [hj]
    exact iff_of_true (.bulkString _) fun _ hname => by cases hname
  | unknown name =>
    have htext : NoCrlf (asBytes ("ERR unknown command '" ++ name ++ "'")) ↔ NoCrlf (asBytes name) := by
      rw [asBytes_append, asBytes_append, noCrlf_append_right (by decide +kernel)]
      exact noCrlf_append_left (ne_cr_of_all rfl)
    rw [show reply = _ from h]
    constructor
    · rintro ⟨⟩ name' ⟨⟩
      exact htext.mp ‹_›
    · exact fun hname => .error _ (htext.mpr (hname name rfl))
  | _ => exact iff_of_true (hop rfl) fun _ hname => by cases hname

/-- With the log closed a write command is answered with an error. -/
theorem run_handleWrite_closed {w : World n} (hw : w.engineFile = none) {cmd : Command} {bytes : Bytes}
    {fault : Option Fault} (hb : commandToRespBytes c cmd = some bytes) :
    (handleWrite hash toJson cmd).run (World.exec c fault) w =
      (some (.ok ()), w.send (errorResponse "AOF file is temporarily closed")) := by
  have hengine : (ServerM.engineFile : ServerM n _).run (World.exec c fault) w = (some none, w) :=
    congrArg (fun f => (some f, w)) hw
  have hfile : (AofEngine.fileMut : ServerM n _).run (World.exec c fault) w =
      (some (.error ⟨.other, "AOF file is temporarily closed"⟩), w) := Prog.run_bind_some hengine
  have happend : (AofEngine.append cmd : ServerM n _).run (World.exec c fault) w =
      (some (.error ⟨.other, "AOF file is temporarily closed"⟩), w) := by
    have hnow : (ServerM.now : ServerM n _).run (World.exec c fault) w = (some c, w) := by
      rw [ServerM.now, World.run_onDb]
      rfl
    rw [AofEngine.append, Prog.run_bind_some hnow, hb]
    exact World.run_andThen_error hfile
  exact Prog.run_bind_some happend

end Replies

section Answers
variable {n : ℕ} {hash : String → UInt64} {toJson : ServerStatsSnapshot → KvResult String} {aof : Bool}
  {t : Turn n}

theorem Turn.reply_of_send {w : World n} {value : RespValue} (hw : w.sent = [])
    (h : (handleFrame hash toJson aof t.visit.request.frame).run
      (World.exec t.visit.clock t.visit.fault) t.start =
        (some (.ok ()), w.send value)) : t.reply hash toJson aof = some value := by
  rw [Turn.reply, h]
  simp [World.send, hw]

/-- The reply to a command that is executed. -/
theorem Turn.reply_executed (hjson : ∀ stats, ∃ json, toJson stats = .ok json)
    (hr : ShardedDatabase.Routed hash t.world.kv.db) {cmd : Command}
    {w : World n} (hkv : w.kv = t.world.kv) (hsent : w.sent = [])
    (hrun : (handleFrame hash toJson aof t.visit.request.frame).run
      (World.exec t.visit.clock t.visit.fault) t.start =
        (onKv (executeCommand hash toJson cmd) >>= writeValue).run
          (World.exec t.visit.clock t.visit.fault) w) :
    (cmd.Fits t.visit.clock (t.world.kv.db.toMap hash) → ∃ value,
      t.reply hash toJson aof = some value ∧
        (LineSafe value ↔ ∀ name, cmd = .unknown name → NoCrlf (asBytes name))) ∧
    (¬ cmd.Fits t.visit.clock (t.world.kv.db.toMap hash) → t.reply hash toJson aof = none) := by
  have hs : Simulates t.visit.clock hash w.kv.db (t.world.kv.db.toMap hash) := by
    rw [hkv]
    exact ⟨hr, rfl⟩
  constructor
  · intro hfits
    obtain ⟨kv, value, hreplies, -, hanswer⟩ :=
      ensures_answer hs cmd hfits
    exact ⟨value, Turn.reply_of_send (w := w.withKv kv) hsent (hrun.trans hanswer),
      lineSafe_of_replies hjson hreplies⟩
  · intro hfits
    obtain ⟨kv, -, hpanics⟩ := panics_answer hs cmd hfits
    rw [Turn.reply, hrun, hpanics]

/-- A turn with a command: only the name of an unknown command is repeated. -/
theorem Turn.answerable_ok_iff {cmd : Command} (hcmd : Command.fromResp t.visit.request.resp = .ok cmd) :
    t.Answerable hash aof ↔ (∀ name, cmd = .unknown name → NoCrlf (asBytes name)) ∧
      (t.Executes aof cmd → cmd.Fits t.visit.clock (t.world.kv.db.toMap hash)) := by
  constructor
  · intro h
    refine ⟨?_, h.fits cmd hcmd⟩
    rintro name rfl
    exact h.echoes name (.inl hcmd)
  · rintro ⟨hname, hfits⟩
    constructor
    · rintro text (hunknown | ⟨args, name, hargs, hset, hupper, hoption⟩)
      · rw [hcmd] at hunknown
        exact hname text (Except.ok.inj hunknown)
      · rw [fromResp_unsupported hargs hset hupper hoption] at hcmd
        cases hcmd
    · intro cmd' hcmd'
      rw [hcmd] at hcmd'
      cases hcmd'
      exact hfits

/-- A turn has a reply unless its task panics, and the reply is safe unless it repeats CRLF. -/
theorem Turn.answerable_iff (hjson : ∀ stats, ∃ json, toJson stats = .ok json)
    (hr : ShardedDatabase.Routed hash t.world.kv.db)
    (hfault : ∀ error ∈ t.visit.appendError, NoCrlf (asBytes error.text)) :
    t.Answerable hash aof ↔ ∃ value, t.reply hash toJson aof = some value ∧ LineSafe value := by
  cases hcmd : Command.fromResp t.visit.request.resp with
  | error error =>
    have hreply : t.reply hash toJson aof = some (errorResponse ("ERR " ++ error.toText)) :=
      Turn.reply_of_send rfl (handleFrame_invalid hcmd)
    have hsafe : LineSafe (errorResponse ("ERR " ++ error.toText)) ↔
        ∀ text, Echoed t.visit.request.resp text → NoCrlf (asBytes text) := by
      rw [← fromResp_error hcmd, ← noCrlf_append_left (s := asBytes "ERR ") (ne_cr_of_all rfl),
        ← asBytes_append]
      exact ⟨fun h => by cases h; assumption, fun h => .error _ h⟩
    constructor
    · exact fun h => ⟨_, hreply, hsafe.mpr h.echoes⟩
    · rintro ⟨value, hvalue, hv⟩
      rw [hreply] at hvalue
      cases hvalue
      refine ⟨hsafe.mp hv, fun cmd h => ?_⟩
      rw [hcmd] at h
      cases h
  | ok cmd =>
    have hanswerable := @Turn.answerable_ok_iff _ hash aof t cmd hcmd
    have hexecuted {w : World n} (hkv : w.kv = t.world.kv) (hsent : w.sent = [])
        (hex : t.Executes aof cmd)
        (hrun : (handleFrame hash toJson aof t.visit.request.frame).run
          (World.exec t.visit.clock t.visit.fault) t.start =
            (onKv (executeCommand hash toJson cmd) >>= writeValue).run
              (World.exec t.visit.clock t.visit.fault) w) :
        t.Answerable hash aof ↔ ∃ value, t.reply hash toJson aof = some value ∧ LineSafe value := by
      obtain ⟨hok, hpanic⟩ := Turn.reply_executed hjson hr hkv hsent hrun
      rw [hanswerable]
      by_cases hfits : cmd.Fits t.visit.clock (t.world.kv.db.toMap hash)
      · obtain ⟨value, hvalue, hsafe⟩ := hok hfits
        simp only [hvalue, Option.some.injEq, exists_eq_left', hsafe, hfits, implies_true, and_true]
      · rw [hpanic hfits]
        exact iff_of_false (fun h => hfits (h.2 hex)) (by simp)
    -- a write command that does not get past the log
    have hrefused (text : String) (hwrite : isWriteCommand cmd = true)
        (hex : ¬ t.Executes aof cmd) (htext : NoCrlf (asBytes text))
        (hreply : t.reply hash toJson aof = some (errorResponse text)) :
        t.Answerable hash aof ↔ ∃ value, t.reply hash toJson aof = some value ∧ LineSafe value := by
      refine iff_of_true (hanswerable.mpr ⟨?_, fun h => absurd h hex⟩)
        ⟨_, hreply, .error text htext⟩
      rintro name rfl
      cases hwrite
    by_cases hwrite : isWriteCommand cmd = true ∧ aof = true
    · obtain ⟨hwrite, rfl⟩ := hwrite
      have hwf : WellFormed cmd := Decoded.wellFormed ⟨_, hcmd⟩
      obtain ⟨r, hl⟩ : ∃ r, logged t.visit.clock cmd = some r :=
        Option.isSome_iff_exists.mp ((isWriteCommand_logged t.visit.clock hwf).symm.trans hwrite)
      have hb : commandToRespBytes t.visit.clock cmd = some r.bytes := by
        rw [commandToRespBytes_eq _ cmd hwf.ne_del_nil, hl]
        rfl
      have hframe : handleFrame (n := n) hash toJson true t.visit.request.frame =
          handleWrite hash toJson cmd := (handleFrame_valid hcmd).trans (handleCommand_logged hwf hl)
      cases hfile : t.world.engineFile with
      | none =>
        refine hrefused "AOF file is temporarily closed" hwrite (fun h => ?_)
          (by decide +kernel) (Turn.reply_of_send (w := t.start) rfl ?_)
        · have hopen := (h hwrite rfl).2
          rw [hfile] at hopen
          cases hopen
        · rw [hframe]
          exact run_handleWrite_closed (w := t.start) hfile hb
      | some file =>
        obtain ⟨path⟩ := file
        have hopen : t.start.engineFile = some ⟨path⟩ := hfile
        cases hf : t.visit.appendError with
        | none =>
          refine hexecuted (w := t.start.append path t.visit.fault r.bytes) rfl rfl
            (fun _ _ => ⟨hf, by rw [hfile]; rfl⟩) ?_
          rw [hframe]
          exact run_handleWrite hopen hb hf
        | some error =>
          refine hrefused _ hwrite (fun h => ?_) (hfault error hf)
            (Turn.reply_of_send (w := t.start.append path t.visit.fault r.bytes) rfl ?_)
          · have hnone := (h hwrite rfl).1
            rw [hf] at hnone
            cases hnone
          · rw [hframe]
            exact run_handleWrite_failed hopen hb hf
    · refine hexecuted (w := t.start) rfl rfl (fun h h' => absurd ⟨h, h'⟩ hwrite) ?_
      rw [handleFrame_valid hcmd, handleCommand, if_neg (by simpa using hwrite)]

/-- An encoded value that fits in memory is read back in front of anything just if it is safe. -/
theorem parse_encoded_iff {v : RespValue} {rest : Bytes} {consumed : ℕ}
    (hl : Loadable (encodeResp v ++ rest)) :
    parseRespOrPanic frameSize (encodeResp v ++ rest) = some (.ok (v, consumed)) ↔
      LineSafe v ∧ consumed = (encodeResp v).length := by
  have hread (hv : LineSafe v) : parseRespOrPanic frameSize (encodeResp v ++ rest) =
      some (.ok (v, (encodeResp v).length)) := by
    have hfront : Loadable (encodeResp v) := hl.of_le (by simp)
    exact parseRespOrPanic_derives (derives_encodeResp v hv hfront.length_le) hfront hl.length_le
  constructor
  · intro h
    obtain ⟨w, rest', -, -, hd⟩ := derives_of_parseResp (parseRespOrPanic_ok h).1
    rw [hread hd.lineSafe] at h
    cases h
    exact ⟨hd.lineSafe, rfl⟩
  · rintro ⟨hv, rfl⟩
    exact hread hv

theorem lineSafe_of_parseEach {vs : List RespValue} {fuel : ℕ}
    (hl : Loadable (vs.map encodeResp).flatten)
    (h : parseEach frameSize fuel (vs.map encodeResp).flatten = some (.ok vs)) :
    ∀ v ∈ vs, LineSafe v := by
  induction vs generalizing fuel with
  | nil => simp
  | cons v vs ih =>
    cases fuel with
    | zero => cases h
    | succ fuel =>
      rw [List.map_cons, List.flatten_cons] at h hl
      rw [parseEach, if_neg (by simp [encodeResp_ne_nil])] at h
      rcases hp : parseRespOrPanic frameSize (encodeResp v ++ (vs.map encodeResp).flatten) with
        _ | ⟨_ | ⟨value, consumed⟩⟩ <;> rw [hp] at h
      · cases h
      · cases h
      obtain ⟨rest, hrest, hvs⟩ := Option.map_eq_some_iff.mp h
      cases rest with
      | error => cases hvs
      | ok values =>
        obtain ⟨rfl, rfl⟩ := List.cons.inj (Except.ok.inj hvs)
        obtain ⟨hv, rfl⟩ := (parse_encoded_iff hl).mp hp
        rw [List.drop_left] at hrest
        exact List.forall_mem_cons.mpr ⟨hv, ih (hl.of_le (by simp)) hrest⟩

/-- Replies back to back are decoded to themselves just if all of them are safe. -/
theorem parseAll_eq_iff {vs : List RespValue} (hl : Loadable (vs.map encodeResp).flatten) :
    parseAll frameSize (vs.map encodeResp).flatten = some (.ok vs) ↔ ∀ v ∈ vs, LineSafe v := by
  refine ⟨lineSafe_of_parseEach hl, fun h => ?_⟩
  refine (parse_encode frameSize).2.1 vs (fun v hv => ⟨h v hv, ?_⟩) hl.length_le
  have hone : Loadable (encodeResp v) :=
    hl.of_le (List.sublist_flatten_of_mem (List.mem_map_of_mem hv)).length_le
  exact arraysFit_of_length (derives_encodeResp v (h v hv) hone.length_le) hone

/-- All requests can be answered just if all have replies, and those are safe. -/
theorem answerable_all_iff (hjson : ∀ stats, ∃ json, toJson stats = .ok json) {turns : List (Turn n)}
    (hr : ∀ t ∈ turns, ShardedDatabase.Routed hash t.world.kv.db)
    (hfault : ∀ t ∈ turns, ∀ error ∈ t.visit.appendError, NoCrlf (asBytes error.text)) :
    (∀ t ∈ turns, t.Answerable hash aof) ↔
      ∃ values, turns.mapM (Turn.reply hash toJson aof) = some values ∧ ∀ v ∈ values, LineSafe v := by
  induction turns with
  | nil => simp
  | cons t turns ih =>
    obtain ⟨hrt, hr⟩ := List.forall_mem_cons.mp hr
    obtain ⟨hft, hfault⟩ := List.forall_mem_cons.mp hfault
    rw [List.forall_mem_cons, Turn.answerable_iff hjson hrt hft, ih hr hfault]
    constructor
    · rintro ⟨⟨v, hv, hsafe⟩, vs, hvs, hall⟩
      refine ⟨v :: vs, ?_, List.forall_mem_cons.mpr ⟨hsafe, hall⟩⟩
      rw [List.mapM_cons, hv, Option.bind_eq_bind, Option.bind_some, hvs]
      rfl
    · rintro ⟨values, hvalues, hall⟩
      rw [List.mapM_cons, Option.bind_eq_bind, Option.bind_eq_some_iff] at hvalues
      obtain ⟨v, hv, hrest⟩ := hvalues
      rw [Option.bind_eq_bind, Option.bind_eq_some_iff] at hrest
      obtain ⟨vs, hvs, heq⟩ := hrest
      cases heq
      obtain ⟨hsafe, hall⟩ := List.forall_mem_cons.mp hall
      exact ⟨⟨v, hv, hsafe⟩, vs, hvs, hall⟩

theorem inStep_iff_lineSafe {turns : List (Turn n)}
    (hfits : ∀ values, turns.mapM (Turn.reply hash toJson aof) = some values →
      Loadable (values.map encodeResp).flatten) : InStep hash toJson aof turns ↔
      ∃ values, turns.mapM (Turn.reply hash toJson aof) = some values ∧ ∀ v ∈ values, LineSafe v :=
  exists_congr fun values => and_congr_right fun hvalues => parseAll_eq_iff (hfits values hvalues)

/-- The replies stay in step with the requests just if every request can be answered. The JSON
writer does not fail, the texts of the errors of the files contain no CRLF, and the replies fit in
the memory of the client. -/
theorem inStep_iff_answerable (hjson : ∀ stats, ∃ json, toJson stats = .ok json)
    {turns : List (Turn n)} (hr : ∀ t ∈ turns, ShardedDatabase.Routed hash t.world.kv.db)
    (hfault : ∀ t ∈ turns, ∀ error ∈ t.visit.appendError, NoCrlf (asBytes error.text))
    (hfits : ∀ values, turns.mapM (Turn.reply hash toJson aof) = some values →
      Loadable (values.map encodeResp).flatten) :
    InStep hash toJson aof turns ↔ ∀ t ∈ turns, t.Answerable hash aof := by
  rw [inStep_iff_lineSafe hfits, answerable_all_iff hjson hr hfault]

end Answers

section Loop
variable {n : ℕ} {hash : String → UInt64} {toJson : ServerStatsSnapshot → KvResult String} {aof : Bool}

/-- What was written to the connection before plays no part. -/
theorem run_withSent {α : Type} {c : Clock} {fault : Option Fault} (p : ServerM n α) (w : World n)
    (sent : List RespValue) : p.run (World.exec c fault) (w.withSent (sent ++ w.sent)) =
      ((p.run (World.exec c fault) w).1, (p.run (World.exec c fault) w).2.withSent
        (sent ++ (p.run (World.exec c fault) w).2.sent)) := by
  induction p generalizing w with
  | ret a => rfl
  | act a k ih =>
    have hexec : World.exec c fault a (w.withSent (sent ++ w.sent)) = ((World.exec c fault a w).1,
        (World.exec c fault a w).2.withSent (sent ++ (World.exec c fault a w).2.sent)) := by
      cases a with
      | writeValue value => simp [World.exec, World.withSent]
      | _ => rfl
    rw [Prog.run_act, Prog.run_act, hexec]
    rcases World.exec c fault a w with ⟨_ | r, w'⟩
    · rfl
    · exact ih r w'

/-- The turns of the requests that one connection sends, when nothing runs beside it. -/
def turnsMet (hash : String → UInt64) (toJson : ServerStatsSnapshot → KvResult String) (aof : Bool) :
    List Visit → World n → List (Turn n)
  | [], _ => []
  | v :: vs, w => ⟨v, w⟩ :: turnsMet hash toJson aof vs
      ((handleFrame hash toJson aof v.request.frame).run (World.exec v.clock v.fault) w).2

theorem forall_turnsMet {P : Visit → Prop} {vs : List Visit} (h : ∀ v ∈ vs, P v) (w : World n) :
    ∀ t ∈ turnsMet hash toJson aof vs w, P t.visit := by
  induction vs generalizing w with
  | nil =>
    intro t ht
    cases ht
  | cons v vs ih =>
    obtain ⟨hv, hvs⟩ := List.forall_mem_cons.mp h
    rw [turnsMet]
    exact List.forall_mem_cons.mpr ⟨hv, ih hvs _⟩

/-- If each turn has a reply, the loop of `handle_client` writes just these. -/
theorem serve_sent {vs : List Visit} {w : World n} {values : List RespValue}
    (h : (turnsMet hash toJson aof vs w).mapM (Turn.reply hash toJson aof) = some values) :
    (serve hash toJson aof vs w).1 = some (.ok ()) ∧
      (serve hash toJson aof vs w).2.sent = w.sent ++ values := by
  induction vs generalizing w values with
  | nil =>
    cases h
    exact ⟨rfl, (List.append_nil _).symm⟩
  | cons v vs ih =>
    rw [turnsMet, List.mapM_cons, Option.bind_eq_bind, Option.bind_eq_some_iff] at h
    obtain ⟨value, hvalue, hrest⟩ := h
    rw [Option.bind_eq_bind, Option.bind_eq_some_iff] at hrest
    obtain ⟨values', hvalues, heq⟩ := hrest
    cases heq
    have hrun := @run_withSent _ _ v.clock v.fault (handleFrame hash toJson aof v.request.frame)
        (w.withSent []) w.sent
    have hw : (w.withSent []).withSent (w.sent ++ (w.withSent []).sent) = w := by
      simp [World.withSent]
    rw [hw] at hrun
    unfold Turn.reply at hvalue
    simp only [Turn.start] at hvalue
    rcases hstart : (handleFrame hash toJson aof v.request.frame).run (World.exec v.clock v.fault)
      (w.withSent []) with ⟨_ | (_ | _), w'⟩ <;> simp only [hstart] at hvalue hrun
    · cases hvalue
    · cases hvalue
    split at hvalue
    · rename_i hsent
      cases hvalue
      rw [hrun] at hvalues
      rw [serve, hrun]
      obtain ⟨hok, hvs⟩ := ih hvalues
      refine ⟨hok, hvs.trans ?_⟩
      simp [World.withSent, hsent]
    · cases hvalue

end Loop

section Sample

/-- The request of some words, at one time. -/
def visitOf (words : List String) (fault : Option Fault) (h : Loadable (encodeArgs (words.map asBytes))) :
    Visit := ⟨⟨0, 0⟩, fault, .ofArgs (words.map asBytes) h⟩

/-- The name of the command contains CRLF. -/
def tornTurn : Turn 0 where
  visit := visitOf ["a\r\nb"] none (by unfold Loadable; decide +kernel)
  world := World.fresh 0 samplePath

/-- A failed append, the same command again, a read, a command that nobody knows, and another one. -/
def sampleVisits : List Visit :=
  [visitOf ["SET", "k", "v"] (some ⟨none, none, some ⟨.other, "Input/output error (os error 5)"⟩⟩)
    (by unfold Loadable; decide +kernel),
   visitOf ["SET", "k", "v"] none (by unfold Loadable; decide +kernel),
   visitOf ["GET", "k"] none (by unfold Loadable; decide +kernel),
   visitOf ["NOSUCH"] none (by unfold Loadable; decide +kernel),
   visitOf ["PING"] none (by unfold Loadable; decide +kernel)]

def sampleTurns : List (Turn 0) :=
  turnsMet (fun _ => 0) (fun _ => .ok "{}") true sampleVisits (World.fresh 0 samplePath)

/-- With one shard every key is where it belongs. -/
theorem routed_single (db : ShardedDatabase 0) : ShardedDatabase.Routed (fun _ => 0) db :=
  fun _ _ _ => Subsingleton.elim (α := Fin 1) _ _

theorem sample_fits {turns : List (Turn 0)}
    (h : ((turns.mapM (Turn.reply (fun _ => 0) (fun _ => .ok "{}") true)).all fun values =>
      decide ((values.map encodeResp).flatten.length * frameSize ≤ isizeMax)) = true) :
    ∀ values, turns.mapM (Turn.reply (fun _ => 0) (fun _ => .ok "{}") true) = some values →
      Loadable (values.map encodeResp).flatten := by
  intro values hvalues
  rw [hvalues] at h
  exact of_decide_eq_true (p := _ * _ ≤ _) h

theorem sampleVisits_decode : sampleVisits.map (fun v => Command.fromResp v.request.resp) =
    [.ok (.set "k" [118] none), .ok (.set "k" [118] none), .ok (.get "k"), .ok (.unknown "NOSUCH"),
      .ok .ping] := by
  decide +kernel

/-- No request sets a deadline, and no name contains CRLF. -/
theorem sampleVisits_plain : ∀ v ∈ sampleVisits, ∃ cmd, Command.fromResp v.request.resp = .ok cmd ∧
    (∀ name, cmd = .unknown name → NoCrlf (asBytes name)) ∧ ∀ c m, cmd.Fits c m := by
  intro v hv
  have hmem := List.mem_map_of_mem (f := fun v => Command.fromResp v.request.resp) hv
  rw [sampleVisits_decode] at hmem
  simp only [List.mem_cons, List.not_mem_nil, or_false] at hmem
  have hclean : NoCrlf (asBytes "NOSUCH") := by decide +kernel
  rcases hmem with h | h | h | h | h
  · exact ⟨_, h, nofun, by rintro c m _ ⟨⟩ _ ⟨⟩ _ ⟨⟩⟩
  · exact ⟨_, h, nofun, by rintro c m _ ⟨⟩ _ ⟨⟩ _ ⟨⟩⟩
  · exact ⟨_, h, nofun, by rintro c m _ ⟨⟩ _ ⟨⟩ _ ⟨⟩⟩
  · exact ⟨_, h, by rintro _ ⟨⟩; exact hclean, by rintro c m _ ⟨⟩⟩
  · exact ⟨_, h, nofun, by rintro c m _ ⟨⟩⟩

/-- The replies to all of them stay in step. -/
theorem inStep_iff_answerable_sample :
    InStep (fun _ => 0) (fun _ => .ok "{}") true sampleTurns := by
  refine (inStep_iff_answerable (fun _ => ⟨_, rfl⟩) (fun t _ => routed_single t.world.kv.db) ?_
    (sample_fits (by decide +kernel))).mpr fun t ht => ?_
  · exact forall_turnsMet (P := fun v => ∀ error ∈ v.appendError, NoCrlf (asBytes error.text))
      (by decide +kernel) _
  · obtain ⟨cmd, hcmd, hname, hfits⟩ := forall_turnsMet sampleVisits_plain _ t ht
    exact (Turn.answerable_ok_iff hcmd).mpr ⟨hname, fun _ => hfits _ _⟩

theorem tornTurn_decodes : Command.fromResp tornTurn.visit.request.resp = .ok (.unknown "a\r\nb") := by
  decide +kernel

/-- The reply to an unknown command with such a name is decoded to a shorter one. -/
theorem not_inStep : ¬ ∀ (n : ℕ) (hash : String → UInt64)
    (toJson : ServerStatsSnapshot → KvResult String) (aof : Bool) (turns : List (Turn n)),
    (∀ stats, ∃ json, toJson stats = .ok json) →
    (∀ t ∈ turns, ShardedDatabase.Routed hash t.world.kv.db) →
    (∀ t ∈ turns, ∀ error ∈ t.visit.appendError, NoCrlf (asBytes error.text)) →
    (∀ values, turns.mapM (Turn.reply hash toJson aof) = some values →
      Loadable (values.map encodeResp).flatten) → InStep hash toJson aof turns := by
  intro hall
  have hjson : ∀ stats : ServerStatsSnapshot, ∃ json, (.ok "{}" : KvResult String) = .ok json :=
    fun _ => ⟨_, rfl⟩
  have hr : ∀ t ∈ [tornTurn], ShardedDatabase.Routed (fun _ => 0) t.world.kv.db :=
    fun t _ => routed_single t.world.kv.db
  have hfault : ∀ t ∈ [tornTurn], ∀ error ∈ t.visit.appendError, NoCrlf (asBytes error.text) :=
    List.forall_mem_singleton.mpr nofun
  have hfits := @sample_fits ([tornTurn]) (by decide +kernel)
  have hanswerable := (answerable_all_iff hjson hr hfault).mpr
    ((inStep_iff_lineSafe hfits).mp (hall _ _ _ _ _ hjson hr hfault hfits))
  have hclean := (hanswerable tornTurn List.mem_cons_self).echoes _ (.inl tornTurn_decodes)
  exact absurd hclean (by decide +kernel)

end Sample

end RustKV

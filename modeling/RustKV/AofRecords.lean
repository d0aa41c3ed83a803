import RustKV.Aof

/-! The records of the log. Each record is the encoding of a command from a small set,
`Record`; decoding gives that command back. -/
namespace RustKV
open Decimal

/-- The commands that stand in a log: deadlines are absolute, and DEL names a key. -/
inductive Record where
  | set (key : String) (value : Bytes)
  | setPxAt (key : String) (value : Bytes) (timestampMs : UInt64)
  | del (key : String) (keys : List String)
  | expireAt (key : String) (timestampMs : UInt64)
  | flushDb

namespace Record

def command : Record → Command
  | .set key value => .set key value none
  | .setPxAt key value ts => .setPxAt key value ts
  | .del key ks => .del (key :: ks)
  | .expireAt key ts => .expireAt key ts
  | .flushDb => .flushDb

def args : Record → List Bytes
  | .set key value => [asBytes "SET", asBytes key, value]
  | .setPxAt key value ts =>
    [asBytes "SET", asBytes key, value, asBytes "PXAT", asBytes (toString ts.toNat)]
  | .del key ks => asBytes "DEL" :: (key :: ks).map asBytes
  | .expireAt key ts => [asBytes "EXPIREAT", asBytes key, asBytes (toString ts.toNat)]
  | .flushDb => [asBytes "FLUSHDB"]

def frame (r : Record) : RespFrame := .array (r.args.map .bulkString)

def bytes (r : Record) : Bytes := encodeResp r.frame

end Record

section Decoding

@[simp] theorem argToStr_asBytes (text label : String) :
    argToStr (asBytes text) label = .ok text := by
  rw [argToStr, fromUtf8_asBytes]

@[simp] theorem parseU64Arg_repr (v : UInt64) (label : String) :
    parseU64Arg (asBytes v.toNat.repr) label = .ok v := by
  have hv : v.toNat ≤ u64Max := Nat.le_sub_one_of_lt v.toNat_lt
  have hbytes : asBytes v.toNat.repr = numeral v.toNat := asBytes_toString_nat v.toNat
  rw [parseU64Arg, argToStr_asBytes]
  simp only [bind, Except.bind, hbytes, parseUnsigned_numeral u64Max v.toNat hv,
    UInt64.ofNat_toNat]
  rfl

theorem respToArgs_bulk (args : List Bytes) :
    respToArgs (.array (args.map .bulkString)) = .ok args := by
  rw [respToArgs, List.mapM_map]
  exact List.mapM_pure (m := KvResult) (l := args) (f := id) |>.trans (by simp; rfl)

/-- A frame of bulk strings that begins with a name in upper case. -/
theorem fromResp_named (name : String) (args : List Bytes) (h : name.toUpper = name) :
    Command.fromResp (.array ((asBytes name :: args).map .bulkString)) =
      parseNamed (asBytes name :: args) name name := by
  rw [Command.fromResp, respToArgs_bulk]
  simp only [bind, Except.bind, List.isEmpty_cons, Bool.false_eq_true, if_false, argAt,
    List.getD_cons_zero, argToStr_asBytes, h]

theorem parseDel_asBytes (name : Bytes) (key : String) (keys : List String) :
    parseDel (name :: (key :: keys).map asBytes) = .ok (.del (key :: keys)) := by
  have hkeys (keys : List String) : (keys.map asBytes).mapM
      (fun arg => argToOwnedString arg "DEL key") = Except.ok (ε := KvError) keys := by
    rw [List.mapM_map]
    simp only [Function.comp_def, argToOwnedString, argToStr_asBytes]
    exact List.mapM_pure (m := KvResult) (l := keys) (f := id) |>.trans (by simp; rfl)
  rw [parseDel, if_neg (by simp), List.drop_succ_cons, List.drop_zero, hkeys]
  rfl

/-- A record is decoded to its command. -/
theorem fromResp_record (r : Record) : Command.fromResp r.frame = .ok r.command := by
  cases r with
  | set key value =>
    refine (fromResp_named "SET" _ (by decide +kernel)).trans ?_
    simp [parseNamed, parseSet, argAt, argToOwnedString, bind, Except.bind]
    rfl
  | setPxAt key value ts =>
    refine (fromResp_named "SET" _ (by decide +kernel)).trans ?_
    simp [parseNamed, parseSet, argAt, argToOwnedString, bind, Except.bind,
      show "PXAT".toUpper = "PXAT" by decide +kernel]
    rfl
  | del key keys =>
    exact (fromResp_named "DEL" _ (by decide +kernel)).trans (parseDel_asBytes _ key keys)
  | expireAt key ts =>
    refine (fromResp_named "EXPIREAT" _ (by decide +kernel)).trans ?_
    simp [parseNamed, parseExpireAt, expectArity, argAt, argToOwnedString, bind, Except.bind]
    rfl
  | flushDb =>
    refine (fromResp_named "FLUSHDB" _ (by decide +kernel)).trans ?_
    rfl

end Decoding

section Encoding

theorem Record.bytes_ne_nil (r : Record) : r.bytes ≠ [] := encodeResp_ne_nil _

/-- A record that fits in memory is a frame. -/
theorem Record.derives (r : Record) (h : r.bytes.length ≤ isizeMax) : Derives r.frame r.bytes := by
  refine derives_encodeResp r.frame (.array _ ?_) h
  intro v hv
  obtain ⟨arg, -, rfl⟩ := List.mem_map.mp hv
  exact .bulkString arg

end Encoding

section Logging

/-- What the log says of a command that is executed at the time `c`. -/
def logged (c : Clock) : Command → Option Record
  | .set key value none => some (.set key value)
  | .set key value (some duration) => some (.setPxAt key value (expireAtMsFromNow c duration))
  | .setPxAt key value ts => some (.setPxAt key value ts)
  | .del (key :: ks) => some (.del key ks)
  | .expire key secs => some (.expireAt key (expireAtMsFromNow c (Duration.fromSecs secs)))
  | .expireAt key ts => some (.expireAt key ts)
  | .flushDb => some .flushDb
  | _ => none

/-- What is appended for a command is its record; `fromResp` never gives an empty DEL. -/
theorem commandToRespBytes_eq (c : Clock) (cmd : Command) (h : cmd ≠ .del []) :
    commandToRespBytes c cmd = (logged c cmd).map Record.bytes := by
  cases cmd with
  | set key value duration => cases duration <;> rfl
  | del keys =>
    cases keys with
    | nil => exact absurd rfl h
    | cons key keys => rfl
  | _ => rfl

theorem snapshotEntryToRespBytes_eq (c : Clock) (entry : DbSnapshotEntry) :
    snapshotEntryToRespBytes c entry =
      match entry.expireAtMs with
      | some ts => (Record.setPxAt entry.key entry.value ts).bytes
      | none => (Record.set entry.key entry.value).bytes := by
  unfold snapshotEntryToRespBytes
  cases entry.expireAtMs <;> rfl

end Logging

section Accepted

/-- A command that some frame decodes to. -/
def Decoded (cmd : Command) : Prop := ∃ resp, Command.fromResp resp = .ok cmd

theorem ok_of_bind {α β : Type} {p : KvResult α} {f : α → KvResult β} {b : β}
    (h : p >>= f = .ok b) : ∃ a, p = .ok a ∧ f a = .ok b := by
  cases p with
  | error e => cases h
  | ok a => exact ⟨a, rfl, h⟩

/-- The commands of `parse_named`: DEL names a key, and durations are whole seconds or
whole milliseconds. -/
def WellFormed : Command → Prop
  | .set _ _ (some duration) => ∃ amount, duration = Duration.fromSecs amount ∨
      duration = Duration.fromMillis amount
  | .del ks => ks ≠ []
  | _ => True

theorem parseSet_wellFormed {args : List Bytes} {cmd : Command} (h : parseSet args = .ok cmd) :
    WellFormed cmd := by
  rw [parseSet] at h
  split_ifs at h with h₁ h₂
  · cases h
  · obtain ⟨key, -, h⟩ := ok_of_bind h
    obtain ⟨option, -, h⟩ := ok_of_bind h
    obtain ⟨amount, -, h⟩ := ok_of_bind h
    split at h <;> cases h
    · exact ⟨amount, Or.inl rfl⟩
    · exact ⟨amount, Or.inr rfl⟩
    · trivial
  · obtain ⟨key, -, h⟩ := ok_of_bind h
    cases h
    trivial

theorem parseDel_wellFormed {args : List Bytes} {cmd : Command} (h : parseDel args = .ok cmd) :
    WellFormed cmd := by
  rw [parseDel] at h
  split_ifs at h with h₁
  · cases h
  · obtain ⟨ks, hks, h⟩ := ok_of_bind h
    cases h
    rintro rfl
    rcases args with _ | ⟨a, _ | ⟨b, args⟩⟩ <;> simp at h₁
    rw [List.drop_succ_cons, List.drop_zero, List.mapM_cons] at hks
    obtain ⟨k, -, hks⟩ := ok_of_bind hks
    obtain ⟨ks, -, hks⟩ := ok_of_bind hks
    cases hks

theorem parseNamed_wellFormed {args : List Bytes} {name normalized : String} {cmd : Command}
    (h : parseNamed args name normalized = .ok cmd) : WellFormed cmd := by
  unfold parseNamed at h
  split at h
  · obtain ⟨_, -, h⟩ := ok_of_bind h
    cases h
    trivial
  · exact parseSet_wellFormed h
  · obtain ⟨_, -, h⟩ := ok_of_bind h
    obtain ⟨_, -, h⟩ := ok_of_bind h
    cases h
    trivial
  · exact parseDel_wellFormed h
  · obtain ⟨_, -, h⟩ := ok_of_bind h
    obtain ⟨_, -, h⟩ := ok_of_bind h
    cases h
    trivial
  · rw [parseKeys] at h
    split_ifs at h <;> cases h <;> trivial
  · obtain ⟨_, -, h⟩ := ok_of_bind h
    obtain ⟨_, -, h⟩ := ok_of_bind h
    obtain ⟨_, -, h⟩ := ok_of_bind h
    cases h
    trivial
  · obtain ⟨_, -, h⟩ := ok_of_bind h
    obtain ⟨_, -, h⟩ := ok_of_bind h
    obtain ⟨_, -, h⟩ := ok_of_bind h
    cases h
    trivial
  · obtain ⟨_, -, h⟩ := ok_of_bind h
    obtain ⟨_, -, h⟩ := ok_of_bind h
    cases h
    trivial
  · obtain ⟨_, -, h⟩ := ok_of_bind h
    cases h
    trivial
  · obtain ⟨_, -, h⟩ := ok_of_bind h
    cases h
    trivial
  · cases h
    trivial

theorem Decoded.wellFormed {cmd : Command} (h : Decoded cmd) : WellFormed cmd := by
  obtain ⟨resp, h⟩ := h
  obtain ⟨args, -, h⟩ := ok_of_bind h
  split_ifs at h
  · cases h
  · obtain ⟨name, -, h⟩ := ok_of_bind h
    exact parseNamed_wellFormed h

theorem WellFormed.ne_del_nil {cmd : Command} (h : WellFormed cmd) : cmd ≠ .del [] := by
  rintro rfl
  exact h rfl

/-- The command of a record is decoded from its frame. -/
theorem Record.decoded (r : Record) : Decoded r.command := ⟨r.frame, fromResp_record r⟩

end Accepted

end RustKV

import RustKV.AofDecoding
import RustKV.CommandGrammar

/-! The one-shot commands of `rustkv-cli`: what clap admits, the request for it, and that the
server reads the request as the command that was meant. -/
namespace RustKV
open Decimal

inductive ClientCommand where
  | ping
  | set (key value : String) (ex px : Option UInt64)
  | get (key : String)
  | del (keys : List String)
  | exists' (key : String)
  | keys
  | expire (key : String) (seconds : UInt64)
  | ttl (key : String)
  | flushdb
  | info
  | shell

/-- What clap refuses: `--ex` together with `--px`, and `del` without a key. -/
def ClientCommand.Admitted : ClientCommand → Prop
  | .set _ _ ex px => ex = none ∨ px = none
  | .del ks => ks ≠ []
  | _ => True

/-- `into_args` -/
def ClientCommand.intoArgs : ClientCommand → Except String (List Bytes)
  | .ping => .ok [asBytes "PING"]
  | .set key value ex px =>
    let args := [asBytes "SET", asBytes key, asBytes value]
    let args := match ex with
      | some seconds => args ++ [asBytes "EX", asBytes (toString seconds.toNat)]
      | none => args
    let args := match px with
      | some milliseconds => args ++ [asBytes "PX", asBytes (toString milliseconds.toNat)]
      | none => args
    .ok args
  | .get key => .ok [asBytes "GET", asBytes key]
  | .del ks => .ok (asBytes "DEL" :: ks.map asBytes)
  | .exists' key => .ok [asBytes "EXISTS", asBytes key]
  | .keys => .ok [asBytes "KEYS"]
  | .expire key seconds =>
    .ok [asBytes "EXPIRE", asBytes key, asBytes (toString seconds.toNat)]
  | .ttl key => .ok [asBytes "TTL", asBytes key]
  | .flushdb => .ok [asBytes "FLUSHDB"]
  | .info => .ok [asBytes "INFO"]
  | .shell => .error "shell mode is interactive and cannot be encoded as one request"

/-- `encode_command` -/
def encodeCommand (args : List Bytes) : Bytes := encodeResp (.array (args.map .bulkString))

/-- The command that is meant; the shell means none. -/
def ClientCommand.meant : ClientCommand → Option Command
  | .ping => some .ping
  | .set key value ex px =>
    some (.set key (asBytes value) ((ex.map .fromSecs).or (px.map .fromMillis)))
  | .get key => some (.get key)
  | .del ks => some (.del ks)
  | .exists' key => some (.exists' key)
  | .keys => some .keys
  | .expire key seconds => some (.expire key seconds)
  | .ttl key => some (.ttl key)
  | .flushdb => some .flushDb
  | .info => some .info
  | .shell => none

section Requests

theorem amount_toString (amount : UInt64) : Amount (asBytes (toString amount.toNat)) amount := by
  rw [asBytes_toString_nat]
  exact ⟨_, Or.inl rfl, digits_eq_some_iff.mp (digits_numeral amount.toNat)⟩

/-- The arguments of a command stand in the form of what is meant. -/
theorem ClientCommand.form {c : ClientCommand} {cmd : Command} (hadmitted : c.Admitted)
    (hmeant : c.meant = some cmd) : ∃ args, c.intoArgs = .ok args ∧ Form args cmd := by
  have hspells {name : String} (h : name.toUpper = name) : Spells (asBytes name) name :=
    spells_asBytes.mpr h
  have hset : Spells (asBytes "SET") "SET" := hspells (by decide +kernel)
  cases c with
  | ping =>
    cases hmeant
    exact ⟨_, rfl, .ping (hspells (by decide +kernel))⟩
  | set key value ex px =>
    cases hmeant
    cases ex with
    | none =>
      cases px with
      | none => exact ⟨_, rfl, .set key (asBytes value) hset⟩
      | some milliseconds =>
        exact ⟨_, rfl, .setPx key (asBytes value) hset (hspells (by decide +kernel))
          (amount_toString milliseconds)⟩
    | some seconds =>
      obtain rfl : px = none := by
        rcases hadmitted with h | h
        · cases h
        · exact h
      exact ⟨_, rfl, .setEx key (asBytes value) hset (hspells (by decide +kernel))
        (amount_toString seconds)⟩
  | get key =>
    cases hmeant
    exact ⟨_, rfl, .get key (hspells (by decide +kernel))⟩
  | del ks =>
    cases hmeant
    exact ⟨_, rfl, .del ks (hspells (by decide +kernel)) hadmitted⟩
  | exists' key =>
    cases hmeant
    exact ⟨_, rfl, .exists' key (hspells (by decide +kernel))⟩
  | keys =>
    cases hmeant
    exact ⟨_, rfl, .keys (hspells (by decide +kernel))⟩
  | expire key seconds =>
    cases hmeant
    exact ⟨_, rfl, .expire key (hspells (by decide +kernel)) (amount_toString seconds)⟩
  | ttl key =>
    cases hmeant
    exact ⟨_, rfl, .ttl key (hspells (by decide +kernel))⟩
  | flushdb =>
    cases hmeant
    exact ⟨_, rfl, .flushDb (hspells (by decide +kernel))⟩
  | info =>
    cases hmeant
    exact ⟨_, rfl, .info (hspells (by decide +kernel))⟩
  | shell => cases hmeant

/-- Arguments in a form are decoded, whatever follows them on the wire. -/
theorem parse_encodeCommand {args : List Bytes} {rest : Bytes}
    (hlen : (encodeCommand args ++ rest).length ≤ isizeMax) :
    Derives (.array (args.map .bulkString)) (encodeCommand args) ∧
      parseResp (encodeCommand args ++ rest) =
        .ok (.array (args.map .bulkString), (encodeCommand args).length) := by
  have hbulk : ∀ v ∈ args.map RespValue.bulkString, LineSafe v := by
    intro v hv
    obtain ⟨arg, -, rfl⟩ := List.mem_map.mp hv
    exact .bulkString arg
  have hle : (encodeCommand args).length ≤ isizeMax := by
    rw [List.length_append] at hlen
    omega
  have hderives : Derives (.array (args.map .bulkString)) (encodeCommand args) :=
    derives_encodeResp _ (.array _ hbulk) hle
  exact ⟨hderives, parseResp_derives hderives hlen⟩

/-- The server reads the request of a one-shot command as the command that is meant, and
consumes exactly the request; its parser does not panic if the arguments fit in an allocation. -/
theorem request_understood (c : ClientCommand) (hshell : c ≠ .shell) (hadmitted : c.Admitted) :
    ∃ args cmd, c.intoArgs = .ok args ∧ c.meant = some cmd ∧
      ∀ rest, (encodeCommand args ++ rest).length ≤ isizeMax →
        ∃ frame, parseResp (encodeCommand args ++ rest) =
            .ok (frame, (encodeCommand args).length) ∧
          (args.length * frameSize ≤ isizeMax →
            parseRespOrPanic frameSize (encodeCommand args ++ rest) =
              some (.ok (frame, (encodeCommand args).length))) ∧
          Command.fromResp frame = .ok cmd := by
  obtain ⟨cmd, hmeant⟩ : ∃ cmd, c.meant = some cmd := by
    cases c with
    | shell => exact absurd rfl hshell
    | _ => exact ⟨_, rfl⟩
  obtain ⟨args, hargs, hform⟩ := ClientCommand.form hadmitted hmeant
  refine ⟨args, cmd, hargs, hmeant, fun rest hlen => ?_⟩
  obtain ⟨hderives, hparse⟩ := parse_encodeCommand hlen
  exact ⟨_, hparse, fun hfits => parseRespOrPanic_of_fits hderives (arraysFit_bulk hfits) hlen,
    fromResp_of_form hform⟩

theorem request_understood_set :
    ∃ args cmd, (ClientCommand.set "k" "v" (some 5) none).intoArgs = .ok args ∧
      (ClientCommand.set "k" "v" (some 5) none).meant = some cmd ∧
      ∀ rest, (encodeCommand args ++ rest).length ≤ isizeMax →
        ∃ frame, parseResp (encodeCommand args ++ rest) =
            .ok (frame, (encodeCommand args).length) ∧
          (args.length * frameSize ≤ isizeMax →
            parseRespOrPanic frameSize (encodeCommand args ++ rest) =
              some (.ok (frame, (encodeCommand args).length))) ∧
          Command.fromResp frame = .ok cmd :=
  request_understood _ nofun (Or.inr rfl)

end Requests

end RustKV

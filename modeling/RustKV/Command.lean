import RustKV.Database
import RustKV.RespParser

/-! `Command` of `rustkv-core` and its decoding from a RESP frame. -/
namespace RustKV
open Decimal

inductive Command where
  | ping
  | set (key : String) (value : Bytes) (expire : Option Duration)
  | setPxAt (key : String) (value : Bytes) (timestampMs : UInt64)
  | get (key : String)
  | del (keys : List String)
  | exists' (key : String)
  | keys
  | expire (key : String) (seconds : UInt64)
  | expireAt (key : String) (timestampMs : UInt64)
  | ttl (key : String)
  | flushDb
  | info
  | unknown (name : String)
  deriving DecidableEq

section Arguments

def invalidCommand {α : Type} (message : String) : KvResult α := .error (.invalidCommand message)

def respValueToArg : RespFrame → KvResult Bytes
  | .simpleString text => .ok (asBytes text)
  | .bulkString bytes => .ok bytes
  | _ => invalidCommand "command arguments must be simple strings or bulk strings"

/-- `u8::is_ascii_whitespace`: space, tab, line feed, form feed, carriage return. -/
def isAsciiWhitespace (b : UInt8) : Bool := b = 32 || b = 9 || b = 10 || b = 12 || b = 13

/-- `str::split_ascii_whitespace`, on the bytes of the string. -/
def splitAsciiWhitespace (line : Bytes) : List Bytes :=
  (line.splitOnP isAsciiWhitespace).filter fun word => !word.isEmpty

def inlineLineToArgs (line : String) : KvResult (List Bytes) :=
  let args := splitAsciiWhitespace (asBytes line)
  if args.isEmpty then invalidCommand "inline command must not be empty" else .ok args

def respToArgs : RespFrame → KvResult (List Bytes)
  | .array values => values.mapM respValueToArg
  | .simpleString line => inlineLineToArgs line
  | .bulkString bytes =>
    match fromUtf8 bytes with
    | none => invalidCommand "inline command must be UTF-8"
    | some line => inlineLineToArgs line
  | _ => invalidCommand "command must be a RESP array or inline string"

def expectArity (args : List Bytes) (expected : ℕ) (command : String) : KvResult Unit :=
  if args.length = expected then
    .ok ()
  else
    invalidCommand (command ++ " expects " ++ toString (expected - 1) ++ " argument(s), got " ++
      toString (args.length - 1))

def argToStr (arg : Bytes) (label : String) : KvResult String :=
  match fromUtf8 arg with
  | none => invalidCommand (label ++ " must be UTF-8")
  | some text => .ok text

def argToOwnedString (arg : Bytes) (label : String) : KvResult String := argToStr arg label

def parseU64Arg (arg : Bytes) (label : String) : KvResult UInt64 := do
  let text ← argToStr arg label
  match parseUnsigned u64Max (asBytes text) with
  | none => invalidCommand (label ++ " must be a non-negative integer")
  | some amount => return UInt64.ofNat amount

/-- `args[i]`, for an index that the caller has checked against the length. -/
def argAt (args : List Bytes) (i : ℕ) : Bytes := args.getD i []

end Arguments

section Forms
variable (args : List Bytes)

def parsePing : KvResult Command := do
  expectArity args 1 "PING"
  return .ping

def parseSet : KvResult Command :=
  if args.length ≠ 3 ∧ args.length ≠ 5 then
    invalidCommand "SET expects key value or key value EX|PX duration"
  else do
    let key ← argToOwnedString (argAt args 1) "SET key"
    let value := argAt args 2
    if args.length = 5 then do
      let option ← argToStr (argAt args 3) "SET expire option"
      let option := option.toUpper
      let amount ← parseU64Arg (argAt args 4) "SET expire duration"
      match option with
      | "EX" => return .set key value (some (Duration.fromSecs amount))
      | "PX" => return .set key value (some (Duration.fromMillis amount))
      | "PXAT" => return .setPxAt key value amount
      | _ => invalidCommand ("unsupported SET expire option: " ++ option)
    else
      return .set key value none

def parseGet : KvResult Command := do
  expectArity args 2 "GET"
  let key ← argToOwnedString (argAt args 1) "GET key"
  return .get key

def parseDel : KvResult Command :=
  if args.length < 2 then
    invalidCommand "DEL expects at least one key"
  else do
    let keys ← (args.drop 1).mapM fun arg => argToOwnedString arg "DEL key"
    return .del keys

def parseExists : KvResult Command := do
  expectArity args 2 "EXISTS"
  let key ← argToOwnedString (argAt args 1) "EXISTS key"
  return .exists' key

def parseKeys : KvResult Command :=
  if args.length = 1 then .ok .keys
  else if args.length = 2 ∧ argAt args 1 = [42] then .ok .keys
  else invalidCommand "KEYS supports only zero arguments or '*'"

def parseExpire : KvResult Command := do
  expectArity args 3 "EXPIRE"
  let key ← argToOwnedString (argAt args 1) "EXPIRE key"
  let seconds ← parseU64Arg (argAt args 2) "EXPIRE seconds"
  return .expire key seconds

def parseExpireAt : KvResult Command := do
  expectArity args 3 "EXPIREAT"
  let key ← argToOwnedString (argAt args 1) "EXPIREAT key"
  let timestampMs ← parseU64Arg (argAt args 2) "EXPIREAT timestamp_ms"
  return .expireAt key timestampMs

def parseTtl : KvResult Command := do
  expectArity args 2 "TTL"
  let key ← argToOwnedString (argAt args 1) "TTL key"
  return .ttl key

def parseFlushdb : KvResult Command := do
  expectArity args 1 "FLUSHDB"
  return .flushDb

def parseInfo : KvResult Command := do
  expectArity args 1 "INFO"
  return .info

end Forms

/-- The form of a command, by its name in upper case. -/
def parseNamed (args : List Bytes) (commandName normalized : String) : KvResult Command :=
  match normalized with
  | "PING" => parsePing args
  | "SET" => parseSet args
  | "GET" => parseGet args
  | "DEL" => parseDel args
  | "EXISTS" => parseExists args
  | "KEYS" => parseKeys args
  | "EXPIRE" => parseExpire args
  | "EXPIREAT" => parseExpireAt args
  | "TTL" => parseTtl args
  | "FLUSHDB" => parseFlushdb args
  | "INFO" => parseInfo args
  | _ => .ok (.unknown commandName)

def Command.fromResp (resp : RespFrame) : KvResult Command := do
  let args ← respToArgs resp
  if args.isEmpty then
    invalidCommand "command array must not be empty"
  else do
    let commandName ← argToStr (argAt args 0) "command"
    let normalized := commandName.toUpper
    parseNamed args commandName normalized

end RustKV

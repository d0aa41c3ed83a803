import RustKV.LibReader
import RustKV.RespEncoder

/-! The parser of `rustkv-protocol`. `RespParser { input, pos }` is a cursor; its
trace records every position sum, index, slice and reserved capacity, in the
order in which the code computes them, so that what can panic is visible.
Positions are exact: that their sums stay below `2^64` is a property of the
trace. -/
namespace RustKV
open Decimal Reader

def isizeMax : ℕ := 2^63 - 1
def usizeMax : ℕ := 2^64 - 1

/-- What the parser does that could panic. -/
inductive Event where
  | add (a b : ℕ)
  | index (i : ℕ)
  | slice (start stop : ℕ)
  | reserve (n : ℕ)
  deriving DecidableEq

abbrev RespParser := Cursor UInt8 Event
abbrev ParseM := Reader UInt8 Event ProtocolError

def byteAt (input : Bytes) (i : ℕ) : UInt8 := input.getD i 0

/-- `self.input[i]` -/
def index (i : ℕ) : ParseM UInt8 := do
  emit (.index i)
  let p ← cursor
  return byteAt p.input i

/-- `&self.input[start..stop]` -/
def slice (start stop : ℕ) : ParseM Bytes := do
  emit (.slice start stop)
  let p ← cursor
  return (p.input.take stop).drop start

/-- `usize::checked_add` -/
def checkedAdd (a b : ℕ) : Option ℕ := if a + b ≤ usizeMax then some (a + b) else none

/-- `self.input[end] == b'\r' && self.input[end + 1] == b'\n'` -/
def crlfAt (stop : ℕ) : ParseM Bool := do
  let first ← index stop
  if first = 13 then do
    emit (.add stop 1)
    let second ← index (stop + 1)
    return second = 10
  else
    return false

def readByte : ParseM UInt8 := do
  let p ← cursor
  match p.input[p.pos]? with
  | none => fail .incomplete
  | some byte => do
    emit (.add p.pos 1)
    seek (p.pos + 1)
    return byte

/-- The loop of `read_line`, with `fuel` bounding the number of rounds. -/
def readLineFrom (start : ℕ) : ℕ → ℕ → ParseM Bytes
  | 0, _ => fail .incomplete
  | fuel+1, stop => do
    let p ← cursor
    emit (.add stop 1)
    if stop + 1 < p.input.length then do
      let found ← crlfAt stop
      if found then do
        emit (.add stop 2)
        seek (stop + 2)
        slice start stop
      else do
        emit (.add stop 1)
        readLineFrom start fuel (stop + 1)
    else
      fail .incomplete

def readLine : ParseM Bytes := do
  let p ← cursor
  readLineFrom p.pos (p.input.length + 1) p.pos

def readBulkBytes (len : ℕ) : ParseM Bytes := do
  let p ← cursor
  let start := p.pos
  match checkedAdd start len with
  | none => fail (.invalidFormat "bulk string overflow")
  | some stop =>
    match checkedAdd stop 2 with
    | none => fail (.invalidFormat "bulk string overflow")
    | some crlfEnd =>
      if crlfEnd > p.input.length then
        fail .incomplete
      else do
        let terminated ← crlfAt stop
        if terminated then do
          seek crlfEnd
          slice start stop
        else
          fail (.invalidFormat "bulk string is not terminated by CRLF")

/-- `str::parse::<i64>` on the bytes of a string. -/
def parseStrI64 (text : String) : Option Int64 :=
  (parseSigned (2^63) (asBytes text)).map Int64.ofInt

def parseI64 (bytes : Bytes) : Except ProtocolError Int64 :=
  match fromUtf8 bytes with
  | none => .error .invalidInteger
  | some text =>
    if text.isEmpty then .error .invalidInteger
    else match parseStrI64 text with
      | none => .error .invalidInteger
      | some value => .ok value

def parseText (line : Bytes) : Except ProtocolError String :=
  match fromUtf8 line with
  | none => .error .invalidUtf8
  | some text => .ok text

def parseSimpleString : ParseM RespFrame := do
  let line ← readLine
  let value ← lift (parseText line)
  return .simpleString value

def parseError : ParseM RespFrame := do
  let line ← readLine
  let value ← lift (parseText line)
  return .error value

def parseInteger : ParseM RespFrame := do
  let line ← readLine
  let value ← lift (parseI64 line)
  return .integer value

def parseBulkString : ParseM RespFrame := do
  let line ← readLine
  let len ← lift (parseI64 line)
  if len.toInt = -1 then
    return .null
  else if len.toInt < -1 then
    fail (.invalidFormat "bulk string length must be -1 or non-negative")
  else do
    let bytes ← readBulkBytes len.toInt.toNat
    return .bulkString bytes

/-- `parse_array`, with the parser of one element as a parameter. -/
def parseArray (parseElement : ParseM RespFrame) : ParseM RespFrame := do
  let line ← readLine
  let len ← lift (parseI64 line)
  if len.toInt = -1 then
    return .null
  else if len.toInt < -1 then
    fail (.invalidFormat "array length must be -1 or non-negative")
  else do
    emit (.reserve len.toInt.toNat)
    let values ← Reader.replicate parseElement len.toInt.toNat
    return .array values

/-- `parse_value`; `fuel` bounds the nesting of arrays. A nested value starts at
least one byte later, so the length of the input is enough. -/
def parseValue : ℕ → ParseM RespFrame
  | 0 => fail .incomplete
  | fuel+1 => do
    let typeByte ← readByte
    if typeByte = 43 then parseSimpleString
    else if typeByte = 45 then parseError
    else if typeByte = 58 then parseInteger
    else if typeByte = 36 then parseBulkString
    else if typeByte = 42 then parseArray (parseValue fuel)
    else fail (.invalidTypeByte typeByte)

/-- The run of `parse_resp`: its result and the final parser. -/
def runParser (input : Bytes) : Except ProtocolError RespFrame × RespParser :=
  (parseValue (input.length + 1)).run input

def parseResp (input : Bytes) : Except ProtocolError (RespFrame × ℕ) :=
  match runParser input with
  | (.ok value, parser) => .ok (value, parser.pos)
  | (.error error, _) => .error error

end RustKV

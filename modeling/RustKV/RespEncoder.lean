import RustKV.LibDecimal

/-! The RESP values of `rustkv-protocol` and their encoding. A borrowed
`RespFrame` and an owned `RespValue` have the same variants; borrowing cannot be
seen in a pure model, so one type stands for both. -/
namespace RustKV
open Decimal

inductive RespValue where
  | simpleString (text : String)
  | error (text : String)
  | integer (number : Int64)
  | bulkString (bytes : Bytes)
  | array (values : List RespValue)
  | null

abbrev RespFrame := RespValue

inductive ProtocolError where
  | incomplete
  | invalidTypeByte (byte : UInt8)
  | invalidInteger
  | invalidUtf8
  | invalidFormat (message : String)
  deriving DecidableEq

/-- The `Display` text of a protocol error. -/
def ProtocolError.toText : ProtocolError → String
  | .incomplete => "incomplete RESP frame"
  | .invalidTypeByte byte => "invalid RESP type byte: " ++ toString byte.toNat
  | .invalidInteger => "invalid integer"
  | .invalidUtf8 => "invalid utf-8"
  | .invalidFormat message => "invalid RESP format: " ++ message

def crlf : Bytes := [13, 10]

mutual

def encodeInto : RespValue → Bytes → Bytes
  | .simpleString text, output => output ++ [43] ++ asBytes text ++ crlf
  | .error text, output => output ++ [45] ++ asBytes text ++ crlf
  | .integer number, output => output ++ [58] ++ asBytes (toString number.toInt) ++ crlf
  | .bulkString bytes, output =>
    output ++ [36] ++ asBytes (toString bytes.length) ++ crlf ++ bytes ++ crlf
  | .array values, output =>
    encodeEach values (output ++ [42] ++ asBytes (toString values.length) ++ crlf)
  | .null, output => output ++ [36, 45, 49, 13, 10]

/-- The loop over the elements of an array. -/
def encodeEach : List RespValue → Bytes → Bytes
  | [], output => output
  | value :: values, output => encodeEach values (encodeInto value output)

end

def encodeResp (value : RespValue) : Bytes := encodeInto value []

mutual

theorem encodeInto_append (value : RespValue) (output : Bytes) :
    encodeInto value output = output ++ encodeInto value [] := by
  cases value with
  | array values =>
    rw [encodeInto, encodeInto, encodeEach_append, encodeEach_append values ([] ++ _ ++ _ ++ _)]
    simp
  | _ => simp [encodeInto]

theorem encodeEach_append (values : List RespValue) (output : Bytes) :
    encodeEach values output = output ++ (values.map encodeResp).flatten := by
  cases values with
  | nil => simp [encodeEach]
  | cons value values =>
    rw [encodeEach, encodeEach_append, encodeInto_append]
    simp [encodeResp]

end

@[simp] theorem encodeResp_simpleString (text : String) :
    encodeResp (.simpleString text) = 43 :: (asBytes text ++ crlf) := by
  simp [encodeResp, encodeInto]

@[simp] theorem encodeResp_error (text : String) :
    encodeResp (.error text) = 45 :: (asBytes text ++ crlf) := by
  simp [encodeResp, encodeInto]

@[simp] theorem encodeResp_integer (number : Int64) :
    encodeResp (.integer number) = 58 :: (asBytes (toString number.toInt) ++ crlf) := by
  simp [encodeResp, encodeInto]

@[simp] theorem encodeResp_bulkString (bytes : Bytes) :
    encodeResp (.bulkString bytes) =
      36 :: (asBytes (toString bytes.length) ++ crlf ++ (bytes ++ crlf)) := by
  simp [encodeResp, encodeInto]

@[simp] theorem encodeResp_array (values : List RespValue) :
    encodeResp (.array values) =
      42 :: (asBytes (toString values.length) ++ crlf ++ (values.map encodeResp).flatten) := by
  simp [encodeResp, encodeInto, encodeEach_append]

@[simp] theorem encodeResp_null : encodeResp .null = 36 :: (asBytes "-1" ++ crlf) := by
  rfl

/-- The shape of every encoding: a type byte and at least a line end. -/
theorem encodeResp_ne_nil (value : RespValue) : encodeResp value ≠ [] := by
  cases value <;> simp

end RustKV

import Mathlib.Data.List.Forall2
import RustKV.RespLines

/-! The grammar of RESP frames, and that the parser reads exactly its words: every
word of the grammar is read back wherever it stands, whatever the parser accepts is
a word of the grammar, and its verdicts do not change when more bytes arrive. -/
namespace RustKV
open Decimal Reader

/-- An integer line: an optional sign and decimal digits with a value in `i64`. -/
def IntLine (line : Bytes) (number : Int64) : Prop :=
  ∃ ds n, digits ds = some n ∧
    ((line = ds ∨ line = 43 :: ds) ∧ number.toInt = n ∨ line = 45 :: ds ∧ number.toInt = -n)

/-- The words of each frame. -/
inductive Derives : RespFrame → Bytes → Prop where
  | simpleString (text : String) (h : NoCrlf (asBytes text)) :
      Derives (.simpleString text) (43 :: (asBytes text ++ crlf))
  | error (text : String) (h : NoCrlf (asBytes text)) :
      Derives (.error text) (45 :: (asBytes text ++ crlf))
  | integer (line : Bytes) (number : Int64) (h : IntLine line number) :
      Derives (.integer number) (58 :: (line ++ crlf))
  | bulkString (line : Bytes) (len : Int64) (bytes : Bytes) (h : IntLine line len)
      (hlen : len.toInt = bytes.length) :
      Derives (.bulkString bytes) (36 :: (line ++ crlf ++ (bytes ++ crlf)))
  | array (line : Bytes) (len : Int64) (values : List RespFrame) (words : List Bytes)
      (h : IntLine line len) (hlen : len.toInt = values.length)
      (hv : List.Forall₂ Derives values words) :
      Derives (.array values) (42 :: (line ++ crlf ++ words.flatten))
  | null (mark : UInt8) (hm : mark = 36 ∨ mark = 42) (line : Bytes) (len : Int64)
      (h : IntLine line len) (hlen : len.toInt = -1) :
      Derives .null (mark :: (line ++ crlf))

section Numbers

theorem parseStrI64_eq_some_iff (text : String) (number : Int64) :
    parseStrI64 text = some number ↔ IntLine (asBytes text) number := by
  unfold parseStrI64 IntLine
  rw [Option.map_eq_some_iff]
  constructor
  · rintro ⟨v, hv, rfl⟩
    have hr := parseSigned_range (by decide) hv
    have hto : (Int64.ofInt v).toInt = v := by
      apply Int64.toInt_ofInt_of_le <;> norm_num at hr <;> omega
    rw [hto]
    obtain ⟨ds, n, hn, h⟩ := parseSigned_eq_some_iff.mp hv
    exact ⟨ds, n, hn, h.imp (fun h => ⟨h.1, h.2.2⟩) fun h => ⟨h.1, h.2.2⟩⟩
  · rintro ⟨ds, n, hn, h⟩
    refine ⟨number.toInt, parseSigned_eq_some_iff.mpr ⟨ds, n, hn, ?_⟩, Int64.ofInt_toInt number⟩
    have h₁ := number.toInt_lt
    have h₂ := number.le_toInt
    refine h.imp (fun h => ⟨h.1, ?_, h.2⟩) fun h => ⟨h.1, ?_, h.2⟩ <;> omega

theorem parseI64_eq_ok_iff (line : Bytes) (number : Int64) :
    parseI64 line = .ok number ↔ IntLine line number := by
  constructor
  · intro h
    unfold parseI64 at h
    split at h
    · simp at h
    · rename_i text ht
      split at h
      · simp at h
      · split at h
        · simp at h
        · rename_i value hv
          cases h
          rw [← (fromUtf8_eq_some_iff line text).mp ht]
          exact (parseStrI64_eq_some_iff text _).mp hv
  · intro h
    have hv : ∃ v, parseSigned (2^63) line = some v := by
      obtain ⟨ds, n, hn, hl⟩ := h
      have h₁ := number.toInt_lt
      have h₂ := number.le_toInt
      refine ⟨number.toInt, parseSigned_eq_some_iff.mpr ⟨ds, n, hn, ?_⟩⟩
      refine hl.imp (fun h => ⟨h.1, ?_, h.2⟩) fun h => ⟨h.1, ?_, h.2⟩ <;> omega
    obtain ⟨hne, hmem⟩ := parseSigned_mem hv.choose_spec
    obtain ⟨text, ht⟩ := fromUtf8_ascii line fun x hx => (hmem x hx).1
    have hb := (fromUtf8_eq_some_iff line text).mp ht
    have hempty : text.isEmpty = false := by
      rw [Bool.eq_false_iff, ne_eq, String.isEmpty_iff]
      rintro rfl
      exact hne hb.symm
    have hp : parseStrI64 text = some number := by
      rw [parseStrI64_eq_some_iff, hb]
      exact h
    simp [parseI64, ht, hempty, hp]

theorem IntLine.noCrlf {line : Bytes} {number : Int64} (h : IntLine line number) :
    NoCrlf line := by
  obtain ⟨ds, n, hn, hl⟩ := h
  have h₁ := number.toInt_lt
  have h₂ := number.le_toInt
  have hv : parseSigned (2^63) line = some number.toInt := by
    refine parseSigned_eq_some_iff.mpr ⟨ds, n, hn, ?_⟩
    refine hl.imp (fun h => ⟨h.1, ?_, h.2⟩) fun h => ⟨h.1, ?_, h.2⟩ <;> omega
  exact noCrlf_of_forall fun x hx => ((parseSigned_mem hv).2 x hx).2.1

/-- The decimal numeral of an `i64` is an integer line. -/
theorem intLine_toString (number : Int64) : IntLine (asBytes (toString number.toInt)) number := by
  rw [← parseStrI64_eq_some_iff, parseStrI64,
    parseSigned_toString _ _ (by simpa using number.le_toInt) (by simpa using number.toInt_lt)]
  simp

/-- The decimal numeral of a length that fits in `i64` is an integer line. -/
theorem intLine_length (n : ℕ) (hn : n ≤ isizeMax) :
    ∃ len : Int64, IntLine (asBytes (toString n)) len ∧ len.toInt = n := by
  have hto : (Int64.ofInt n).toInt = n := by
    apply Int64.toInt_ofInt_of_le
    · omega
    · have : isizeMax < 2^63 := by decide
      omega
  refine ⟨Int64.ofInt n, ?_, hto⟩
  have h := intLine_toString (Int64.ofInt n)
  rwa [hto] at h

theorem parseText_eq_ok_iff (line : Bytes) (text : String) :
    parseText line = .ok text ↔ asBytes text = line := by
  rw [← fromUtf8_eq_some_iff]
  unfold parseText
  cases fromUtf8 line <;> simp

end Numbers

section Header
variable {α β : Type} {limit : ℕ}

/-- A frame starts with a line that is decoded before anything else is read. -/
def header (r : Bytes → Except ProtocolError α) (g : α → ParseM β) : ParseM β := do
  let line ← readLine
  let a ← lift (r line)
  g a

theorem reads_header {r : Bytes → Except ProtocolError α} {g : α → ParseM β} {line w : Bytes}
    {a : α} {b : β} (hl : NoCrlf line) (h : r line = .ok a) (hg : Reads limit (g a) w b) :
    Reads limit (header r g) (line ++ crlf ++ w) b :=
  reads_bind (reads_readLine hl) (reads_bind (w := []) (reads_lift h) hg)

theorem reads_header_pure {r : Bytes → Except ProtocolError α} {line : Bytes} {a : α} (g : α → β)
    (hl : NoCrlf line) (h : r line = .ok a) :
    Reads limit (header r fun a => pure (g a)) (line ++ crlf) (g a) := by
  have hg : Reads limit (pure (g a) : ParseM β) [] (g a) := reads_pure (g a)
  have hh := reads_header (g := fun a => pure (g a)) hl h hg
  rwa [List.append_nil] at hh

theorem consumes_header (r : Bytes → Except ProtocolError α) {g : α → ParseM β}
    {M : α → β → Bytes → Prop} (hg : ∀ a, Consumes (g a) (M a)) :
    Consumes (header r g) (fun b w => ∃ line a v,
      w = line ++ crlf ++ v ∧ NoCrlf line ∧ r line = .ok a ∧ M a b v) := by
  apply (consumes_bind consumes_readLine fun line =>
    consumes_bind (consumes_lift (r line)) hg).mono
  rintro b w ⟨line, u, v, rfl, ⟨hl, rfl⟩, a, u', v', rfl, ⟨hr, rfl⟩, hv⟩
  exact ⟨line, a, v', rfl, hl, hr, hv⟩

theorem stable_header (r : Bytes → Except ProtocolError α) {g : α → ParseM β}
    (hg : ∀ a, Stable .incomplete (g a)) : Stable .incomplete (header r g) :=
  stable_bind consumes_readLine stable_readLine fun line =>
    stable_bind (consumes_lift (r line)) (stable_lift (r line)) hg

end Header

section Values

/-- What `parse_bulk_string` does after its length line. -/
def bulkBody (len : Int64) : ParseM RespFrame :=
  if len.toInt = -1 then
    pure .null
  else if len.toInt < -1 then
    fail (.invalidFormat "bulk string length must be -1 or non-negative")
  else do
    let bytes ← readBulkBytes len.toInt.toNat
    return .bulkString bytes

/-- What `parse_array` does after its length line. -/
def arrayBody (parseElement : ParseM RespFrame) (len : Int64) : ParseM RespFrame :=
  if len.toInt = -1 then
    pure .null
  else if len.toInt < -1 then
    fail (.invalidFormat "array length must be -1 or non-negative")
  else do
    emit (.reserve len.toInt.toNat)
    let values ← Reader.replicate parseElement len.toInt.toNat
    return .array values

theorem parseSimpleString_eq :
    parseSimpleString = header parseText fun value => pure (.simpleString value) := rfl
theorem parseError_eq : parseError = header parseText fun value => pure (.error value) := rfl
theorem parseInteger_eq :
    parseInteger = header parseI64 fun value => pure (.integer value) := rfl
theorem parseBulkString_eq : parseBulkString = header parseI64 bulkBody := rfl
theorem parseArray_eq (parseElement : ParseM RespFrame) :
    parseArray parseElement = header parseI64 (arrayBody parseElement) := rfl

/-- The words of a bulk string or array body, after the length line. -/
def BulkWord (len : Int64) (f : RespFrame) (w : Bytes) : Prop :=
  len.toInt = -1 ∧ f = .null ∧ w = [] ∨
    ∃ bytes, len.toInt = bytes.length ∧ f = .bulkString bytes ∧ w = bytes ++ crlf

def ArrayWord (len : Int64) (f : RespFrame) (w : Bytes) : Prop :=
  len.toInt = -1 ∧ f = .null ∧ w = [] ∨
    ∃ values words, len.toInt = (values.length : ℕ) ∧ f = .array values ∧ w = words.flatten ∧
      List.Forall₂ Derives values words

theorem consumes_bulkBody (len : Int64) : Consumes (bulkBody len) (BulkWord len) := by
  unfold bulkBody
  split_ifs with h₁ h₂
  · apply (consumes_pure _).mono
    rintro f w ⟨rfl, rfl⟩
    exact Or.inl ⟨h₁, rfl, rfl⟩
  · exact consumes_fail _ _
  · apply (consumes_bind (consumes_readBulkBytes _) fun bytes => consumes_pure _).mono
    rintro f w ⟨bytes, u, v, rfl, ⟨hlen, rfl⟩, rfl, rfl⟩
    exact Or.inr ⟨bytes, by omega, rfl, by simp⟩

theorem stable_bulkBody (len : Int64) : Stable .incomplete (bulkBody len) := by
  unfold bulkBody
  split_ifs with h₁ h₂
  · exact stable_pure _
  · exact stable_fail _
  · exact stable_bind (consumes_readBulkBytes _) (stable_readBulkBytes _) fun _ => stable_pure _

theorem consumes_arrayBody {parseElement : ParseM RespFrame} (h : Consumes parseElement Derives)
    (len : Int64) : Consumes (arrayBody parseElement len) (ArrayWord len) := by
  unfold arrayBody
  split_ifs with h₁ h₂
  · apply (consumes_pure _).mono
    rintro f w ⟨rfl, rfl⟩
    exact Or.inl ⟨h₁, rfl, rfl⟩
  · exact consumes_fail _ _
  · apply (consumes_bind (consumes_emit _) fun _ =>
      consumes_bind (consumes_replicate h _) fun values => consumes_pure _).mono
    rintro f w ⟨_, u, v, rfl, rfl, values, u', v', rfl, ⟨hlen, words, rfl, hw⟩, rfl, rfl⟩
    exact Or.inr ⟨values, words, by omega, rfl, by simp, hw⟩

theorem stable_arrayBody {parseElement : ParseM RespFrame} (h : Consumes parseElement Derives)
    (hs : Stable .incomplete parseElement) (len : Int64) :
    Stable .incomplete (arrayBody parseElement len) := by
  unfold arrayBody
  split_ifs with h₁ h₂
  · exact stable_pure _
  · exact stable_fail _
  · exact stable_bind (consumes_emit _) (stable_emit _) fun _ =>
      stable_bind (consumes_replicate h _) (stable_replicate h hs _) fun _ => stable_pure _

/-- Whatever the parser accepts is a word of the grammar. -/
theorem consumes_parseValue (fuel : ℕ) : Consumes (parseValue fuel) Derives := by
  induction fuel with
  | zero => exact consumes_fail _ _
  | succ fuel ih =>
    have htext := consumes_header parseText (β := RespFrame) (M := fun t f w =>
      (f = .simpleString t) ∧ w = []) fun t => consumes_pure _
    have herror := consumes_header parseText (β := RespFrame) (M := fun t f w =>
      (f = .error t) ∧ w = []) fun t => consumes_pure _
    have hint := consumes_header parseI64 (β := RespFrame) (M := fun n f w =>
      (f = .integer n) ∧ w = []) fun n => consumes_pure _
    have hbulk := consumes_header parseI64 consumes_bulkBody
    have harray := consumes_header parseI64 (consumes_arrayBody ih)
    apply (consumes_bind consumes_readByte (M := fun b f w => Derives f (b :: w)) ?_).mono
    · rintro f w ⟨b, u, v, rfl, rfl, hf⟩
      exact hf
    · intro b
      split_ifs with h₁ h₂ h₃ h₄ h₅
      · subst h₁
        apply htext.mono
        rintro f w ⟨line, text, v, rfl, hl, ht, rfl, rfl⟩
        rw [parseText_eq_ok_iff] at ht
        subst ht
        simpa using Derives.simpleString text hl
      · subst h₂
        apply herror.mono
        rintro f w ⟨line, text, v, rfl, hl, ht, rfl, rfl⟩
        rw [parseText_eq_ok_iff] at ht
        subst ht
        simpa using Derives.error text hl
      · subst h₃
        apply hint.mono
        rintro f w ⟨line, number, v, rfl, hl, hn, rfl, rfl⟩
        simpa using Derives.integer line number ((parseI64_eq_ok_iff _ _).mp hn)
      · subst h₄
        apply hbulk.mono
        rintro f w ⟨line, len, v, rfl, hl, hn, ⟨hlen, rfl, rfl⟩ | ⟨bytes, hlen, rfl, rfl⟩⟩
        · simpa using Derives.null 36 (Or.inl rfl) line len ((parseI64_eq_ok_iff _ _).mp hn) hlen
        · exact Derives.bulkString line len bytes ((parseI64_eq_ok_iff _ _).mp hn) hlen
      · subst h₅
        apply harray.mono
        rintro f w ⟨line, len, v, rfl, hl, hn, ⟨hlen, rfl, rfl⟩ | ⟨values, words, hlen, rfl, rfl, hw⟩⟩
        · simpa using Derives.null 42 (Or.inr rfl) line len ((parseI64_eq_ok_iff _ _).mp hn) hlen
        · exact Derives.array line len values words ((parseI64_eq_ok_iff _ _).mp hn) hlen hw
      · exact consumes_fail _ _

theorem stable_parseValue (fuel : ℕ) : Stable .incomplete (parseValue fuel) := by
  induction fuel with
  | zero => exact stable_fail _
  | succ fuel ih =>
    apply stable_bind consumes_readByte stable_readByte
    intro b
    split_ifs
    · exact stable_header parseText fun _ => stable_pure _
    · exact stable_header parseText fun _ => stable_pure _
    · exact stable_header parseI64 fun _ => stable_pure _
    · exact stable_header parseI64 stable_bulkBody
    · exact stable_header parseI64 (stable_arrayBody (consumes_parseValue fuel) ih)
    · exact stable_fail _

theorem reads_bulkBody {len : Int64} {bytes : Bytes} (h : len.toInt = bytes.length) :
    Reads isizeMax (bulkBody len) (bytes ++ crlf) (.bulkString bytes) := by
  have hn : len.toInt.toNat = bytes.length := by omega
  rw [bulkBody, if_neg (by omega), if_neg (by omega), hn]
  exact reads_bind_pure RespValue.bulkString (reads_readBulkBytes bytes)

theorem reads_arrayBody {parseElement : ParseM RespFrame} {len : Int64} {values : List RespFrame}
    {words : List Bytes} (h : len.toInt = (values.length : ℕ))
    (hv : List.Forall₂ (fun f w => Reads isizeMax parseElement w f) values words) :
    Reads isizeMax (arrayBody parseElement len) words.flatten (.array values) := by
  have hn : len.toInt.toNat = values.length := by omega
  rw [arrayBody, if_neg (by omega), if_neg (by omega), hn]
  exact reads_bind (reads_emit _) (reads_bind_pure RespValue.array (reads_replicate hv))

theorem reads_typeByte {fuel : ℕ} {b : UInt8} {w : Bytes} {f : RespFrame} {m : ParseM RespFrame}
    (hm : (if b = 43 then parseSimpleString else if b = 45 then parseError
      else if b = 58 then parseInteger else if b = 36 then parseBulkString
      else if b = 42 then parseArray (parseValue fuel) else fail (.invalidTypeByte b)) = m)
    (h : Reads isizeMax m w f) : Reads isizeMax (parseValue (fuel + 1)) (b :: w) f := by
  subst hm
  exact reads_bind (reads_readByte b) h

/-- Every word of the grammar is read back, wherever it stands. -/
theorem reads_parseValue (fuel : ℕ) (f : RespFrame) (w : Bytes) (hd : Derives f w)
    (hw : w.length < fuel) : Reads isizeMax (parseValue fuel) w f := by
  induction fuel generalizing f w with
  | zero => omega
  | succ fuel ih =>
    cases hd with
    | simpleString text h =>
      apply reads_typeByte rfl
      exact reads_header_pure RespValue.simpleString h ((parseText_eq_ok_iff _ text).mpr rfl)
    | error text h =>
      apply reads_typeByte rfl
      exact reads_header_pure RespValue.error h ((parseText_eq_ok_iff _ text).mpr rfl)
    | integer line number h =>
      apply reads_typeByte rfl
      exact reads_header_pure RespValue.integer h.noCrlf ((parseI64_eq_ok_iff _ _).mpr h)
    | bulkString line len bytes h hlen =>
      apply reads_typeByte rfl
      exact reads_header h.noCrlf ((parseI64_eq_ok_iff _ _).mpr h) (reads_bulkBody hlen)
    | array line len values words h hlen hv =>
      apply reads_typeByte rfl
      apply reads_header h.noCrlf ((parseI64_eq_ok_iff _ _).mpr h)
      apply reads_arrayBody hlen
      -- each element is shorter than the whole word, so one unit of fuel less is enough
      have hsub : ∀ v ∈ words, v.length < fuel := by
        intro v hv
        have := (List.sublist_flatten_of_mem hv).length_le
        simp only [List.length_cons, List.length_append] at hw
        omega
      obtain ⟨hl, hzip⟩ := List.forall₂_iff_zip.mp hv
      exact List.forall₂_iff_zip.mpr ⟨hl, fun hab =>
        ih _ _ (hzip hab) (hsub _ (List.of_mem_zip hab).2)⟩
    | null mark hm line len h hlen =>
      have hbody (g : Int64 → ParseM RespFrame) (hg : g len = pure .null) :
          Reads isizeMax (header parseI64 g) (line ++ crlf) .null := by
        have hnull : Reads isizeMax (g len) [] RespValue.null := hg ▸ reads_pure RespValue.null
        have hr := reads_header h.noCrlf ((parseI64_eq_ok_iff _ _).mpr h) hnull
        rwa [List.append_nil] at hr
      rcases hm with rfl | rfl
      · exact reads_typeByte rfl (hbody bulkBody (if_pos hlen))
      · exact reads_typeByte rfl (hbody (arrayBody (parseValue fuel)) (if_pos hlen))

end Values

end RustKV

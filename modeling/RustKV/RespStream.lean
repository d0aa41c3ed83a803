import RustKV.RespGrammar

/-! `parse_resp` as the callers see it: a frame that stands at the front of the
input is returned with its length, a proper prefix of a frame is incomplete, and
an encoded value is a frame. -/
namespace RustKV
open Decimal Reader

/-- More fuel than bytes left changes nothing. -/
theorem parseValue_fuel (fuel extra : ℕ) :
    ∀ r, r < fuel → AgreeUpTo r (parseValue fuel) (parseValue (fuel + extra)) := by
  induction fuel with
  | zero => intro r hr; omega
  | succ fuel ih =>
    intro r hr c hc hcr
    rw [Nat.succ_add]
    change (readByte >>= _) c = (readByte >>= _) c
    rcases hb : readByte c with ⟨e | b, d⟩
    · rw [bind_error hb, bind_error hb]
    · rw [bind_ok hb, bind_ok hb]
      obtain ⟨hi, w, rfl, hd, hp⟩ := consumes_readByte c d b hc hb
      have hlen := congrArg List.length hd
      simp only [List.length_drop, List.length_append, List.length_singleton] at hlen hp
      have helem : AgreeUpTo (d.input.length - d.pos) (parseValue fuel)
          (parseValue (fuel + extra)) := ih _ (by rw [hi]; omega)
      have harr (len : Int64) : AgreeUpTo (d.input.length - d.pos)
          (arrayBody (parseValue fuel) len) (arrayBody (parseValue (fuel + extra)) len) := by
        unfold arrayBody
        split_ifs
        · exact agreeUpTo_refl _
        · exact agreeUpTo_refl _
        · exact agreeUpTo_bind (consumes_emit _) (agreeUpTo_refl _) fun _ =>
            agreeUpTo_bind (consumes_replicate (consumes_parseValue fuel) _)
              (agreeUpTo_replicate (consumes_parseValue fuel) helem _) fun _ => agreeUpTo_refl _
      have hpa : AgreeUpTo (d.input.length - d.pos) (parseArray (parseValue fuel))
          (parseArray (parseValue (fuel + extra))) := by
        rw [parseArray_eq, parseArray_eq]
        exact agreeUpTo_bind consumes_readLine (agreeUpTo_refl _) fun line =>
          agreeUpTo_bind (consumes_lift (parseI64 line)) (agreeUpTo_refl _) harr
      split_ifs
      · rfl
      · rfl
      · rfl
      · rfl
      · exact hpa d (by rw [hi]; omega) le_rfl
      · rfl

/-- The run of the parser does not depend on how much fuel is left over. -/
theorem runParser_eq (input : Bytes) (fuel : ℕ) (hf : input.length < fuel) :
    runParser input = (parseValue fuel).run input := by
  obtain ⟨extra, rfl⟩ := Nat.exists_eq_add_of_lt hf
  have h := parseValue_fuel (input.length + 1) extra input.length (by omega) ⟨input, 0, []⟩
    (Nat.zero_le _) (by simp)
  rw [show input.length + extra + 1 = input.length + 1 + extra by omega]
  exact h

theorem parseResp_eq_ok {x : Bytes} {f : RespFrame} {n : ℕ} :
    parseResp x = .ok (f, n) ↔ ∃ d, runParser x = (.ok f, d) ∧ d.pos = n := by
  unfold parseResp
  rcases runParser x with ⟨e | g, d⟩
  · simp
  · constructor
    · intro h
      cases h
      exact ⟨d, rfl, rfl⟩
    · rintro ⟨d', h, rfl⟩
      cases h
      rfl

theorem parseResp_eq_error {x : Bytes} {e : ProtocolError} :
    parseResp x = .error e ↔ (runParser x).1 = .error e := by
  unfold parseResp
  rcases runParser x with ⟨e | g, d⟩ <;> simp

/-- A frame at the front of the input is returned with its length. -/
theorem parseResp_derives {f : RespFrame} {w rest : Bytes} (hd : Derives f w)
    (hl : (w ++ rest).length ≤ isizeMax) : parseResp (w ++ rest) = .ok (f, w.length) := by
  obtain ⟨ev, h⟩ := (reads_parseValue ((w ++ rest).length + 1) f w hd
    (by rw [List.length_append]; omega)).run hl
  rw [parseResp_eq_ok]
  exact ⟨_, h, rfl⟩

/-- What is returned is a frame of the grammar at the front of the input. -/
theorem derives_of_parseResp {x : Bytes} {f : RespFrame} {n : ℕ}
    (h : parseResp x = .ok (f, n)) : ∃ w rest, x = w ++ rest ∧ n = w.length ∧ Derives f w := by
  obtain ⟨d, hr, rfl⟩ := parseResp_eq_ok.mp h
  obtain ⟨_, w, hw, hx, hp⟩ := consumes_parseValue _ _ _ _ (Nat.zero_le _) hr
  exact ⟨w, _, hx, by simpa using hp, hw⟩

theorem Derives.ne_nil {f : RespFrame} {w : Bytes} (h : Derives f w) : w ≠ [] := by
  cases h <;> simp

/-- A proper prefix of a frame is incomplete. -/
theorem parseResp_prefix {f : RespFrame} {w p : Bytes} (hd : Derives f w)
    (hl : w.length ≤ isizeMax) (hp : p <+: w) (hne : p ≠ w) :
    parseResp p = .error .incomplete := by
  have hw := prefix_waits (consumes_parseValue (w.length + 1)) (stable_parseValue (w.length + 1))
    (reads_parseValue (w.length + 1) f w hd (by omega)) hl hp hne
  rw [parseResp_eq_error, runParser_eq p (w.length + 1) (by have := hp.length_le; omega)]
  exact hw

/-- A verdict other than "incomplete" stands however the input goes on. -/
theorem parseResp_stable (x y : Bytes) :
    (∀ f n, parseResp x = .ok (f, n) → parseResp (x ++ y) = .ok (f, n)) ∧
    (∀ e, e ≠ .incomplete → parseResp x = .error e → parseResp (x ++ y) = .error e) := by
  have hlen : x.length < (x ++ y).length + 1 := by rw [List.length_append]; omega
  have hs := stable_parseValue ((x ++ y).length + 1) ⟨x, 0, []⟩ ⟨x ++ y, 0, []⟩
    (Nat.zero_le _) ⟨rfl, List.prefix_append x y⟩
  have hx := runParser_eq x ((x ++ y).length + 1) hlen
  refine ⟨fun f n h => ?_, fun e he h => ?_⟩
  · obtain ⟨d, hr, rfl⟩ := parseResp_eq_ok.mp h
    obtain ⟨d', hd', hpos, _⟩ := hs.1 f d (hx.symm.trans hr)
    exact parseResp_eq_ok.mpr ⟨d', hd', hpos⟩
  · rcases hr : runParser x with ⟨e' | g, d⟩
    · rw [parseResp_eq_error, hr] at h
      cases h
      obtain ⟨d', hd'⟩ := hs.2 e d (hx.symm.trans hr) he
      rw [parseResp_eq_error]
      exact congrArg Prod.fst hd'
    · rw [parseResp_eq_error, hr] at h
      cases h

/-- No text of the value contains CRLF. -/
inductive LineSafe : RespValue → Prop where
  | simpleString (text : String) (h : NoCrlf (asBytes text)) : LineSafe (.simpleString text)
  | error (text : String) (h : NoCrlf (asBytes text)) : LineSafe (.error text)
  | integer (number : Int64) : LineSafe (.integer number)
  | bulkString (bytes : Bytes) : LineSafe (.bulkString bytes)
  | array (values : List RespValue) (h : ∀ v ∈ values, LineSafe v) : LineSafe (.array values)
  | null : LineSafe .null

/-- Every element of an array costs at least one byte. -/
theorem length_le_encodeEach (values : List RespValue) :
    values.length ≤ (values.map encodeResp).flatten.length := by
  induction values with
  | nil => simp
  | cons v vs ih =>
    have := List.length_pos_iff.mpr (encodeResp_ne_nil v)
    simp only [List.map_cons, List.flatten_cons, List.length_append, List.length_cons]
    omega

theorem length_le_flatten {vs : List RespFrame} {ws : List Bytes}
    (hv : List.Forall₂ Derives vs ws) : vs.length ≤ ws.flatten.length := by
  induction hv with
  | nil => simp
  | cons hd _ ih =>
    have := List.length_pos_iff.mpr hd.ne_nil
    simp only [List.flatten_cons, List.length_append, List.length_cons]
    omega

/-- The encoding of a value that fits in memory is a word of the grammar. -/
theorem derives_encodeResp : ∀ v : RespValue, LineSafe v → (encodeResp v).length ≤ isizeMax →
    Derives v (encodeResp v)
  | .simpleString text, .simpleString _ h, _ => by
    rw [encodeResp_simpleString]
    exact .simpleString text h
  | .error text, .error _ h, _ => by
    rw [encodeResp_error]
    exact .error text h
  | .integer number, _, _ => by
    rw [encodeResp_integer]
    exact .integer _ number (intLine_toString number)
  | .bulkString bytes, _, hl => by
    rw [encodeResp_bulkString] at hl ⊢
    simp only [List.length_cons, List.length_append] at hl
    obtain ⟨len, hline, hlen⟩ := intLine_length bytes.length (by omega)
    exact .bulkString _ len bytes hline hlen
  | .array values, .array _ h, hl => by
    rw [encodeResp_array] at hl ⊢
    simp only [List.length_cons, List.length_append] at hl
    have hcount := length_le_encodeEach values
    obtain ⟨len, hline, hlen⟩ := intLine_length values.length (by omega)
    refine .array _ len values _ hline hlen ?_
    rw [List.forall₂_map_right_iff, List.forall₂_same]
    intro v hv
    refine derives_encodeResp v (h v hv) ?_
    have := (List.sublist_flatten_of_mem (List.mem_map_of_mem (f := encodeResp) hv)).length_le
    omega
  | .null, _, _ => by
    rw [encodeResp_null]
    exact .null 36 (Or.inl rfl) _ (-1) (intLine_toString (-1)) rfl

/-- An encoded value is read back, with its exact length, in front of anything. -/
theorem parseResp_encodeResp (v : RespValue) (rest : Bytes) (hv : LineSafe v)
    (hl : (encodeResp v ++ rest).length ≤ isizeMax) :
    parseResp (encodeResp v ++ rest) = .ok (v, (encodeResp v).length) :=
  parseResp_derives (derives_encodeResp v hv (by rw [List.length_append] at hl; omega)) hl

end RustKV

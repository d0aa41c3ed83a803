import RustKV.RespSafety

/-! What holds of `parse_resp` on every input: it accepts exactly the words of the grammar,
its verdicts stand when more bytes arrive, and it undoes the encoding. -/
namespace RustKV
open Decimal Reader

section Exact
variable {x : Bytes} {f : RespFrame} {n : ℕ}

/-- `parse_resp` accepts exactly the grammar, and there is one frame at most at the front of
an input. -/
theorem parseResp_eq_ok_iff (x : Bytes) (hx : x.length ≤ isizeMax) :
    (∀ f n, parseResp x = .ok (f, n) ↔ n ≤ x.length ∧ Derives f (x.take n)) ∧
      ∀ f n f' n', n ≤ x.length → n' ≤ x.length → Derives f (x.take n) →
        Derives f' (x.take n') → f = f' ∧ n = n' := by
  have hparse {f : RespFrame} {n : ℕ} (hn : n ≤ x.length) (hd : Derives f (x.take n)) :
      parseResp x = .ok (f, n) := by
    have h := parseResp_derives hd (by rwa [List.take_append_drop])
    rwa [List.take_append_drop, List.length_take, Nat.min_eq_left hn] at h
  refine ⟨fun f n => ⟨fun h => ?_, fun h => hparse h.1 h.2⟩, fun f n f' n' hn hn' hd hd' => ?_⟩
  · obtain ⟨w, rest, rfl, rfl, hd⟩ := derives_of_parseResp h
    rw [List.take_left]
    exact ⟨by simp, hd⟩
  · have h := hparse hn hd
    rw [hparse hn' hd'] at h
    cases h
    exact ⟨rfl, rfl⟩

/-- A status line and the beginning of another frame. -/
def okLine : Bytes := asBytes "+OK\r\n:"

theorem parseResp_eq_ok_iff_okLine :
    (∀ f n, parseResp okLine = .ok (f, n) ↔ n ≤ okLine.length ∧ Derives f (okLine.take n)) ∧
      ∀ f n f' n', n ≤ okLine.length → n' ≤ okLine.length → Derives f (okLine.take n) →
        Derives f' (okLine.take n') → f = f' ∧ n = n' :=
  parseResp_eq_ok_iff okLine (by decide +kernel)

/-- The words of a frame have at least three bytes. -/
theorem Derives.three_le {w : Bytes} (h : Derives f w) : 3 ≤ w.length := by
  cases h <;> simp [crlf] <;> omega

/-- Verdicts other than "incomplete" stand; an accepted frame is accepted alone, and no proper
prefix of it is anything but incomplete. -/
theorem parseResp_streaming (x y : Bytes) (hx : x.length ≤ isizeMax) :
    (∀ f n, parseResp x = .ok (f, n) → parseResp (x ++ y) = .ok (f, n)) ∧
    (∀ e, e ≠ .incomplete → parseResp x = .error e → parseResp (x ++ y) = .error e) ∧
    ∀ f n, parseResp x = .ok (f, n) → 3 ≤ n ∧ n ≤ x.length ∧
      parseResp (x.take n) = .ok (f, n) ∧
      ∀ k, k < n → parseResp (x.take k) = .error .incomplete := by
  obtain ⟨hok, herror⟩ := parseResp_stable x y
  refine ⟨hok, herror, fun f n h => ?_⟩
  obtain ⟨w, rest, rfl, rfl, hd⟩ := derives_of_parseResp h
  have hw : w.length ≤ isizeMax := le_trans (by simp) hx
  refine ⟨hd.three_le, by simp, ?_, fun k hk => ?_⟩
  · have halone := parseResp_derives hd (by rwa [List.append_nil])
    rw [List.append_nil] at halone
    rw [List.take_left]
    exact halone
  · rw [List.take_append_of_le_length hk.le]
    refine parseResp_prefix hd hw (List.take_prefix ..) fun heq => ?_
    have := congrArg List.length heq
    rw [List.length_take] at this
    omega

theorem parseResp_streaming_okLine :
    (∀ f n, parseResp okLine = .ok (f, n) → parseResp (okLine ++ [49]) = .ok (f, n)) ∧
    (∀ e, e ≠ .incomplete → parseResp okLine = .error e →
      parseResp (okLine ++ [49]) = .error e) ∧
    ∀ f n, parseResp okLine = .ok (f, n) → 3 ≤ n ∧ n ≤ okLine.length ∧
      parseResp (okLine.take n) = .ok (f, n) ∧
      ∀ k, k < n → parseResp (okLine.take k) = .error .incomplete :=
  parseResp_streaming okLine [49] (by decide +kernel)

end Exact

section Canonical

theorem length_toString_le {line : Bytes} {number : Int64} (h : IntLine line number) :
    (asBytes (toString number.toInt)).length ≤ line.length := by
  obtain ⟨ds, n, hn, hl⟩ := h
  have hle := length_numeral_le_of_digits hn
  have hpos (h : number.toInt = n) : (asBytes (toString number.toInt)).length ≤ ds.length := by
    rw [h, show toString (n : ℤ) = toString n from rfl, asBytes_toString_nat]
    exact hle
  rcases hl with ⟨rfl | rfl, hv⟩ | ⟨rfl, hv⟩
  · exact hpos hv
  · exact (hpos hv).trans (by simp)
  · cases n with
    | zero => exact (hpos (by simpa using hv)).trans (by simp)
    | succ n =>
      rw [hv, show toString (-((n + 1 : ℕ) : ℤ)) = "-" ++ toString (n + 1) from rfl, asBytes_append,
        asBytes_toString_nat, List.length_append, List.length_cons]
      have hminus : (asBytes "-").length = 1 := by decide
      omega

theorem length_flatten_le {vs : List RespFrame} {ws : List Bytes}
    (h : List.Forall₂ (fun v w => (encodeResp v).length ≤ w.length) vs ws) :
    (vs.map encodeResp).flatten.length ≤ ws.flatten.length := by
  induction h with
  | nil => simp
  | cons hd _ ih =>
    simp only [List.map_cons, List.flatten_cons, List.length_append]
    omega

/-- A fact about frames and words that passes from the elements of an array to the array. -/
theorem derives_induction {P : RespFrame → Bytes → Prop}
    (hother : ∀ f w, Derives f w → (∀ values, f ≠ .array values) → P f w)
    (harray : ∀ line len values words, IntLine line len → len.toInt = values.length →
      List.Forall₂ Derives values words → List.Forall₂ P values words →
      P (.array values) (42 :: (line ++ crlf ++ words.flatten)))
    {f : RespFrame} {w : Bytes} (h : Derives f w) : P f w := by
  induction hn : w.length using Nat.strong_induction_on generalizing f w with
  | _ n ih =>
    subst hn
    cases h with
    | array line len values words hline hlen hv =>
      refine harray line len values words hline hlen hv ?_
      -- each element is shorter than the whole word
      obtain ⟨hl, hzip⟩ := List.forall₂_iff_zip.mp hv
      refine List.forall₂_iff_zip.mpr ⟨hl, fun hab => ih _ ?_ (hzip hab) rfl⟩
      have := (List.sublist_flatten_of_mem (List.of_mem_zip hab).2).length_le
      simp only [List.length_cons, List.length_append]
      omega
    | simpleString text h => exact hother _ _ (.simpleString text h) (by simp)
    | error text h => exact hother _ _ (.error text h) (by simp)
    | integer line number h => exact hother _ _ (.integer line number h) (by simp)
    | bulkString line len bytes h hlen => exact hother _ _ (.bulkString line len bytes h hlen) (by simp)
    | null mark hm line len h hlen => exact hother _ _ (.null mark hm line len h hlen) (by simp)

/-- The encoding is the shortest word of a frame. -/
theorem length_encodeResp_le {f : RespFrame} {w : Bytes} (h : Derives f w) :
    (encodeResp f).length ≤ w.length := by
  refine derives_induction (P := fun f w => (encodeResp f).length ≤ w.length) ?_ ?_ h
  · intro f w h hf
    cases h with
    | array line len values words => exact absurd rfl (hf values)
    | simpleString | error => simp
    | integer line number h =>
      have := length_toString_le h
      simp only [encodeResp_integer, List.length_cons, List.length_append]
      omega
    | bulkString line len bytes h hlen =>
      have := length_toString_le h
      rw [hlen, show toString (bytes.length : ℤ) = toString bytes.length from rfl] at this
      simp only [encodeResp_bulkString, List.length_cons, List.length_append]
      omega
    | null mark hm line len h hlen =>
      have := length_toString_le h
      rw [hlen] at this
      simp only [encodeResp_null, List.length_cons, List.length_append]
      exact Nat.succ_le_succ (Nat.add_le_add_right this _)
  · intro line len values words hline hlen _ hv
    have hvalues := length_flatten_le hv
    have := length_toString_le hline
    rw [hlen, show toString ((values.length : ℕ) : ℤ) = toString values.length from rfl] at this
    simp only [encodeResp_array, List.length_cons, List.length_append]
    omega

/-- What the parser returns can be encoded. -/
theorem Derives.lineSafe {f : RespFrame} {w : Bytes} (h : Derives f w) : LineSafe f := by
  refine derives_induction (P := fun f _ => LineSafe f) ?_ ?_ h
  · intro f w h hf
    cases h with
    | array line len values words => exact absurd rfl (hf values)
    | simpleString text h => exact .simpleString text h
    | error text h => exact .error text h
    | integer line number => exact .integer number
    | bulkString line len bytes => exact .bulkString bytes
    | null => exact .null
  · intro line len values words _ _ _ hv
    refine .array values fun v hmem => ?_
    obtain ⟨hl, hzip⟩ := List.forall₂_iff_zip.mp hv
    obtain ⟨i, hi, rfl⟩ := List.getElem_of_mem hmem
    exact hzip (List.mem_iff_getElem.mpr ⟨i, by simp [← hl, hi], List.getElem_zip⟩)

theorem words_unique {values values' : List RespFrame} {words words' : List Bytes}
    {r r' : Bytes} (hv : List.Forall₂ (fun f w => ∀ f' w' r r', Derives f' w' →
      w ++ r = w' ++ r' → f = f' ∧ w = w') values words)
    (hv' : List.Forall₂ Derives values' words') (hlen : values.length = values'.length)
    (h : words.flatten ++ r = words'.flatten ++ r') : values = values' ∧ words = words' := by
  induction hv generalizing values' words' with
  | nil =>
    cases hv' with
    | nil => exact ⟨rfl, rfl⟩
    | cons => simp at hlen
  | cons hd _ ih =>
    cases hv' with
    | nil => simp at hlen
    | cons hd' hv' =>
      simp only [List.flatten_cons, List.append_assoc] at h
      obtain ⟨rfl, rfl⟩ := hd _ _ _ _ hd' h
      obtain ⟨rfl, rfl⟩ := ih hv' (by simpa using hlen) (List.append_cancel_left h)
      exact ⟨rfl, rfl⟩

/-- The grammar is prefix-free: two words at the front of one input are equal, and so are
their frames. -/
theorem Derives.unique {f f' : RespFrame} {w w' r r' : Bytes} (hd : Derives f w)
    (hd' : Derives f' w') (h : w ++ r = w' ++ r') : f = f' ∧ w = w' := by
  have htext {t t' : String} {r r' : Bytes} (ht : NoCrlf (asBytes t)) (ht' : NoCrlf (asBytes t'))
      (h : asBytes t ++ crlf ++ r = asBytes t' ++ crlf ++ r') : t = t' :=
    asBytes_injective (line_unique ht ht' h).1
  have hline {l l' : Bytes} {i i' : Int64} {r r' : Bytes} (hi : IntLine l i) (hi' : IntLine l' i')
      (h : l ++ crlf ++ r = l' ++ crlf ++ r') : l = l' ∧ i = i' ∧ r = r' := by
    obtain ⟨rfl, rfl⟩ := line_unique hi.noCrlf hi'.noCrlf h
    exact ⟨rfl, intLine_unique hi hi', rfl⟩
  -- the first byte tells the kind of frame, except that a null is announced as a bulk string or array
  refine derives_induction (P := fun f w => ∀ f' w' r r', Derives f' w' → w ++ r = w' ++ r' →
    f = f' ∧ w = w') ?_ ?_ hd _ _ _ _ hd' h
  · intro f w hd hf f' w' r r' hd' h
    cases hd with
    | array line len values words => exact absurd rfl (hf values)
    | simpleString text ht =>
      cases hd' with
      | simpleString text' ht' =>
        obtain rfl := htext ht ht' (by simpa using h)
        exact ⟨rfl, rfl⟩
      | null mark hm => rcases hm with rfl | rfl <;> simp at h
      | _ => simp at h
    | error text ht =>
      cases hd' with
      | error text' ht' =>
        obtain rfl := htext ht ht' (by simpa using h)
        exact ⟨rfl, rfl⟩
      | null mark hm => rcases hm with rfl | rfl <;> simp at h
      | _ => simp at h
    | integer line number hi =>
      cases hd' with
      | integer line' number' hi' =>
        obtain ⟨rfl, rfl, -⟩ := hline hi hi' (by simpa using h)
        exact ⟨rfl, rfl⟩
      | null mark hm => rcases hm with rfl | rfl <;> simp at h
      | _ => simp at h
    | bulkString line len bytes hi hlen =>
      cases hd' with
      | bulkString line' len' bytes' hi' hlen' =>
        have hwords : line ++ crlf ++ (bytes ++ crlf ++ r) =
            line' ++ crlf ++ (bytes' ++ crlf ++ r') := by simpa using h
        obtain ⟨rfl, rfl, hrest⟩ := hline hi hi' hwords
        rw [List.append_assoc, List.append_assoc] at hrest
        obtain ⟨rfl, -⟩ := List.append_inj hrest (by omega)
        exact ⟨rfl, rfl⟩
      | null mark hm line' len' hi' hlen' =>
        simp only [List.cons_append, List.cons.injEq, List.append_assoc] at h
        obtain ⟨-, rfl, -⟩ := hline hi hi' (by simpa using h.2)
        omega
      | _ => simp at h
    | null mark hm line len hi hlen =>
      cases hd' with
      | null mark' hm' line' len' hi' hlen' =>
        simp only [List.cons_append, List.cons.injEq] at h
        obtain ⟨rfl, -, -⟩ := hline hi hi' h.2
        obtain ⟨rfl, -⟩ := h
        exact ⟨rfl, rfl⟩
      | bulkString line' len' bytes' hi' hlen' =>
        simp only [List.cons_append, List.cons.injEq, List.append_assoc] at h
        obtain ⟨-, rfl, -⟩ := hline hi hi' (by simpa using h.2)
        omega
      | array line' len' values' words' hi' hlen' =>
        simp only [List.cons_append, List.cons.injEq, List.append_assoc] at h
        obtain ⟨-, rfl, -⟩ := hline hi hi' (by simpa using h.2)
        omega
      | _ => rcases hm with rfl | rfl <;> simp at h
  · intro line len values words hi hlen _ hv f' w' r r' hd' h
    cases hd' with
    | array line' len' values' words' hi' hlen' hv' =>
      have hwords : line ++ crlf ++ (words.flatten ++ r) =
          line' ++ crlf ++ (words'.flatten ++ r') := by simpa using h
      obtain ⟨rfl, rfl, hrest⟩ := hline hi hi' hwords
      obtain ⟨rfl, rfl⟩ := words_unique hv hv' (by omega) hrest
      exact ⟨rfl, rfl⟩
    | null mark hm line' len' hi' hlen' =>
      simp only [List.cons_append, List.cons.injEq, List.append_assoc] at h
      obtain ⟨-, rfl, -⟩ := hline hi hi' (by simpa using h.2)
      omega
    | _ => simp at h

end Canonical

section RoundTrip
variable {elementSize : ℕ}

/-- Repeated `parse_resp`, with its panics. `fuel` bounds the number of frames. -/
def parseEach (elementSize : ℕ) : ℕ → Bytes → Option (Except ProtocolError (List RespFrame))
  | 0, _ => some (.ok [])
  | fuel+1, input =>
    if input.isEmpty then some (.ok [])
    else match parseRespOrPanic elementSize input with
      | none => none
      | some (.error error) => some (.error error)
      | some (.ok (value, consumed)) =>
        (parseEach elementSize fuel (input.drop consumed)).map fun rest => rest.map (value :: ·)

def parseAll (elementSize : ℕ) (input : Bytes) : Option (Except ProtocolError (List RespFrame)) :=
  parseEach elementSize input.length input

/-- An encoded value is read back without a panic, in front of anything. -/
theorem parseRespOrPanic_encodeResp {v : RespValue} (rest : Bytes) (hv : LineSafe v)
    (hf : ArraysFit elementSize v) (hl : (encodeResp v ++ rest).length ≤ isizeMax) :
    parseRespOrPanic elementSize (encodeResp v ++ rest) = some (.ok (v, (encodeResp v).length)) :=
  parseRespOrPanic_of_fits
    (derives_encodeResp v hv (by rw [List.length_append] at hl; omega)) hf hl

theorem parseEach_encoded (vs : List RespValue) (fuel : ℕ)
    (hvs : ∀ v ∈ vs, LineSafe v ∧ ArraysFit elementSize v)
    (hl : (vs.map encodeResp).flatten.length ≤ isizeMax)
    (hfuel : (vs.map encodeResp).flatten.length ≤ fuel) :
    parseEach elementSize fuel (vs.map encodeResp).flatten = some (.ok vs) := by
  induction vs generalizing fuel with
  | nil => cases fuel <;> rfl
  | cons v vs ih =>
    obtain ⟨hv, hvs⟩ := List.forall_mem_cons.mp hvs
    have hpos := List.length_pos_iff.mpr (encodeResp_ne_nil v)
    rw [List.map_cons, List.flatten_cons] at hl hfuel ⊢
    have hparse := parseRespOrPanic_encodeResp _ hv.1 hv.2 hl
    rw [List.length_append] at hl hfuel
    obtain ⟨fuel, rfl⟩ := Nat.exists_eq_succ_of_ne_zero (show fuel ≠ 0 by omega)
    rw [parseEach, if_neg (by simp [encodeResp_ne_nil]), hparse]
    simp only [List.drop_left]
    rw [ih fuel hvs (by omega) (by omega)]
    rfl

/-- Decoding undoes encoding: a value in front of anything, values back to back, and what the
parser itself has returned. -/
theorem parse_encode (elementSize : ℕ) :
    (∀ v rest, LineSafe v → ArraysFit elementSize v → (encodeResp v ++ rest).length ≤ isizeMax →
      parseRespOrPanic elementSize (encodeResp v ++ rest) =
        some (.ok (v, (encodeResp v).length))) ∧
    (∀ vs, (∀ v ∈ vs, LineSafe v ∧ ArraysFit elementSize v) →
      (vs.map encodeResp).flatten.length ≤ isizeMax →
      parseAll elementSize (vs.map encodeResp).flatten = some (.ok vs)) ∧
    ∀ x f n, x.length ≤ isizeMax → parseRespOrPanic elementSize x = some (.ok (f, n)) →
      parseRespOrPanic elementSize (encodeResp f) = some (.ok (f, (encodeResp f).length)) := by
  refine ⟨fun v rest hv hf hl => parseRespOrPanic_encodeResp rest hv hf hl,
    fun vs hvs hl => parseEach_encoded vs _ hvs hl le_rfl, fun x f n hx h => ?_⟩
  obtain ⟨hparse, hsafe⟩ := parseRespOrPanic_ok h
  have hannounced := (parseRespOrPanic_eq_iff elementSize x hx).mp hsafe
  obtain ⟨w, rest, rfl, -, hd⟩ := derives_of_parseResp hparse
  have hf : ArraysFit elementSize f := fun k hk =>
    hannounced k ((announces_of_holdsArray hk hd).append rest)
  have hle := length_encodeResp_le hd
  have hback := parseRespOrPanic_encodeResp [] hd.lineSafe hf (by
    rw [List.append_nil]
    rw [List.length_append] at hx
    omega)
  rwa [List.append_nil] at hback

end RoundTrip

end RustKV

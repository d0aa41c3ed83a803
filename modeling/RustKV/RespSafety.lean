import RustKV.RespStream

/-! What `parse_resp` may do wrong on hostile input. Its indices, slices and sums
are always in range; the capacities it reserves are exactly the array lengths
that the input announces, and these are not bounded by the input. -/
namespace RustKV
open Decimal Reader

/-- No sum overflows `usize`, no index or slice leaves the input. -/
def Event.InRange (input : Bytes) : Event → Prop
  | .add a b => a + b ≤ usizeMax
  | .index i => i < input.length
  | .slice start stop => start ≤ stop ∧ stop ≤ input.length
  | .reserve _ => True

/-- `Vec::with_capacity(n)` panics when `n` elements take more than `isize::MAX` bytes. -/
def Event.Panics (elementSize : ℕ) (input : Bytes) : Event → Prop
  | .reserve n => isizeMax < n * elementSize
  | event => ¬ event.InRange input

instance (elementSize : ℕ) (input : Bytes) (event : Event) :
    Decidable (event.Panics elementSize input) := by
  cases event <;> simp only [Event.Panics, Event.InRange] <;> infer_instance

/-- `parse_resp` with its panics: `none` where a step of the run panics. -/
def parseRespOrPanic (elementSize : ℕ) (input : Bytes) :
    Option (Except ProtocolError (RespFrame × ℕ)) :=
  if ∃ event ∈ (runParser input).2.events, event.Panics elementSize input then none
  else some (parseResp input)

/-- `s` announces an array of `n` elements where a value is expected: at its front, or
inside an array, after fewer complete elements than that array announces. -/
inductive Announces : Bytes → ℕ → Prop where
  | here (line : Bytes) (len : Int64) (n : ℕ) (rest : Bytes) (h : IntLine line len)
      (hlen : len.toInt = n) : Announces (42 :: (line ++ crlf ++ rest)) n
  | inside (line : Bytes) (len : Int64) (values : List RespFrame) (words : List Bytes)
      (rest : Bytes) (n : ℕ) (h : IntLine line len) (hv : List.Forall₂ Derives values words)
      (hlen : (values.length : ℤ) < len.toInt) (hr : Announces rest n) :
      Announces (42 :: (line ++ crlf ++ (words.flatten ++ rest))) n

/-- The lengths of the arrays in a frame. -/
inductive HoldsArray : RespFrame → ℕ → Prop where
  | here (values : List RespFrame) : HoldsArray (.array values) values.length
  | inside (values : List RespFrame) (v : RespFrame) (n : ℕ) (hv : v ∈ values)
      (h : HoldsArray v n) : HoldsArray (.array values) n

/-- The arrays of a frame fit in memory. -/
def ArraysFit (elementSize : ℕ) (f : RespFrame) : Prop :=
  ∀ n, HoldsArray f n → n * elementSize ≤ isizeMax

section Upper
variable {c : RespParser}

/-- In range, and no capacity. -/
def Event.Quiet (input : Bytes) (event : Event) : Prop :=
  event.InRange input ∧ ∀ n, event ≠ .reserve n

/-- The events of a value that starts at `pos`. -/
def Event.Expected (input : Bytes) (pos : ℕ) (event : Event) : Prop :=
  event.InRange input ∧ ∀ n, event = .reserve n → Announces (input.drop pos) n

theorem Event.Quiet.expected {input : Bytes} {pos : ℕ} {event : Event} (h : event.Quiet input) :
    event.Expected input pos :=
  ⟨h.1, fun n hn => absurd hn (h.2 n)⟩

theorem quiet_add {input : Bytes} {a b : ℕ} (h : a + b ≤ usizeMax) :
    (Event.add a b).Quiet input := ⟨h, by simp⟩

theorem emitsAt_index {i : ℕ} (hi : i < c.input.length) :
    EmitsAt c (index i) (Event.Quiet c.input) :=
  emitsAt_emit_bind ⟨hi, by simp⟩ (emitsAt_cursor_bind (emitsAt_pure _))

theorem emitsAt_slice {start stop : ℕ} (h₁ : start ≤ stop) (h₂ : stop ≤ c.input.length) :
    EmitsAt c (slice start stop) (Event.Quiet c.input) :=
  emitsAt_emit_bind ⟨⟨h₁, h₂⟩, by simp⟩ (emitsAt_cursor_bind (emitsAt_pure _))

theorem index_input {i : ℕ} {b : UInt8} {d : RespParser} (h : index i c = (.ok b, d)) :
    d.input = c.input := by
  simp only [index, bind_apply, emit_apply, cursor_apply, pure_apply, Prod.mk.injEq] at h
  rw [← h.2]

theorem crlfAt_input {stop : ℕ} {b : Bool} {d : RespParser} (h : crlfAt stop c = (.ok b, d)) :
    d.input = c.input := by
  obtain ⟨ev, he⟩ := crlfAt_apply stop c
  rw [h] at he
  rw [(Prod.mk.inj he).2]

theorem emitsAt_crlfAt (hc : c.input.length ≤ isizeMax) {stop : ℕ}
    (h : stop + 1 < c.input.length) : EmitsAt c (crlfAt stop) (Event.Quiet c.input) := by
  have hmax : isizeMax ≤ usizeMax := by decide
  refine emitsAt_bind (emitsAt_index (by omega)) fun b d hd => ?_
  have hi := index_input hd
  split_ifs
  · refine emitsAt_emit_bind (quiet_add (by omega)) (emitsAt_bind ?_ fun _ _ _ => emitsAt_pure _)
    rw [← hi] at h ⊢
    exact emitsAt_index h
  · exact emitsAt_pure _

/-- The loop of `read_line` never leaves the input. -/
theorem emitsAt_readLineFrom (start fuel stop : ℕ) (hc : c.input.length ≤ isizeMax)
    (hs : start ≤ stop) (hl : stop ≤ c.input.length) :
    EmitsAt c (readLineFrom start fuel stop) (Event.Quiet c.input) := by
  have hmax : isizeMax < usizeMax := by decide
  induction fuel generalizing c stop with
  | zero => exact emitsAt_fail _
  | succ fuel ih =>
    refine emitsAt_cursor_bind (emitsAt_emit_bind (quiet_add (by omega)) ?_)
    split_ifs with hstop
    · have hcrlf : EmitsAt ⟨c.input, c.pos, .add stop 1 :: c.events⟩ (crlfAt stop)
          (Event.Quiet c.input) := by
        apply emitsAt_crlfAt <;> assumption
      refine emitsAt_bind hcrlf fun found e he => ?_
      have hi : e.input = c.input := (crlfAt_input he).trans rfl
      rw [← hi] at hc hl hstop ⊢
      split_ifs
      · exact emitsAt_emit_bind (quiet_add (by omega)) (emitsAt_seek_bind (emitsAt_slice hs hl))
      · refine emitsAt_emit_bind (quiet_add (by omega)) ?_
        exact ih (stop + 1) hc (by omega) (by simp only; omega)
    · exact emitsAt_fail _

theorem emitsAt_readLine (hc : c.input.length ≤ isizeMax) (hp : c.pos ≤ c.input.length) :
    EmitsAt c readLine (Event.Quiet c.input) :=
  emitsAt_cursor_bind (emitsAt_readLineFrom c.pos _ c.pos hc le_rfl hp)

theorem emitsAt_readByte (hc : c.input.length ≤ isizeMax) (hp : c.pos ≤ c.input.length) :
    EmitsAt c readByte (Event.Quiet c.input) := by
  have hmax : isizeMax < usizeMax := by decide
  refine emitsAt_cursor_bind ?_
  cases c.input[c.pos]? with
  | none => exact emitsAt_fail _
  | some byte =>
    exact emitsAt_emit_bind (quiet_add (by omega)) (emitsAt_seek_bind (emitsAt_pure _))

theorem emitsAt_readBulkBytes (hc : c.input.length ≤ isizeMax) (len : ℕ) :
    EmitsAt c (readBulkBytes len) (Event.Quiet c.input) := by
  refine emitsAt_cursor_bind ?_
  cases hstop : checkedAdd c.pos len with
  | none => simpa only [hstop] using emitsAt_fail _
  | some stop =>
  cases hend : checkedAdd stop 2 with
  | none => simpa only [hstop, hend] using emitsAt_fail _
  | some crlfEnd =>
  obtain rfl : c.pos + len = stop := Option.some.inj (Option.ite_none_right_eq_some.mp hstop).2
  obtain rfl : c.pos + len + 2 = crlfEnd :=
    Option.some.inj (Option.ite_none_right_eq_some.mp hend).2
  simp only [hstop, hend]
  split_ifs with hl
  · exact emitsAt_fail _
  · refine emitsAt_bind (emitsAt_crlfAt hc (by omega)) fun terminated e he => ?_
    have hi := crlfAt_input he
    split_ifs
    · refine emitsAt_seek_bind ?_
      rw [← hi]
      exact emitsAt_slice (Nat.le_add_right _ _) (by simp only [hi]; omega)
    · exact emitsAt_fail _

/-- A header line is quiet; what follows starts right after it. -/
theorem emitsAt_header {α β : Type} {r : Bytes → Except ProtocolError α} {g : α → ParseM β}
    {P : Event → Prop} (hc : c.input.length ≤ isizeMax) (hp : c.pos ≤ c.input.length)
    (hP : ∀ v, Event.Quiet c.input v → P v)
    (hg : ∀ line a e, r line = .ok a → e.input = c.input → e.pos ≤ e.input.length →
      c.input.drop c.pos = line ++ crlf ++ e.input.drop e.pos → EmitsAt e (g a) P) :
    EmitsAt c (header r g) P := by
  refine emitsAt_bind ((emitsAt_readLine hc hp).mono hP) fun line d hd => ?_
  obtain ⟨hi, w, ⟨_, rfl⟩, hdrop, hpos⟩ := consumes_readLine c d line hp hd
  have hle := (consumes_readLine.pos_le hp hd).2.2
  refine emitsAt_bind (emitsAt_lift _) fun a e he => ?_
  simp only [lift_apply, Prod.mk.injEq] at he
  obtain ⟨hr, rfl⟩ := he
  exact hg line a d hr hi (hi ▸ hle) (hi ▸ hdrop)

/-- Every event of the parser is in range, and every capacity is announced by the input. -/
theorem emitsAt_parseValue (fuel : ℕ) (hc : c.input.length ≤ isizeMax)
    (hp : c.pos ≤ c.input.length) :
    EmitsAt c (parseValue fuel) (Event.Expected c.input c.pos) := by
  induction fuel generalizing c with
  | zero => exact emitsAt_fail _
  | succ fuel ih =>
    refine emitsAt_bind ((emitsAt_readByte hc hp).mono fun _ => Event.Quiet.expected)
      fun b d hd => ?_
    obtain ⟨hi, w, rfl, hdrop, -⟩ := consumes_readByte c d b hp hd
    have hp' : d.pos ≤ d.input.length := hi ▸ (consumes_readByte.pos_le hp hd).2.2
    rw [← hi] at hc hdrop ⊢
    have hq : ∀ v, Event.Quiet d.input v → Event.Expected d.input c.pos v :=
      fun _ => Event.Quiet.expected
    split_ifs with h₁ h₂ h₃ h₄ h₅
    · exact emitsAt_header hc hp' hq fun _ _ _ _ _ _ _ => emitsAt_pure _
    · exact emitsAt_header hc hp' hq fun _ _ _ _ _ _ _ => emitsAt_pure _
    · exact emitsAt_header hc hp' hq fun _ _ _ _ _ _ _ => emitsAt_pure _
    · refine emitsAt_header hc hp' hq fun line len e _ he hpe _ => ?_
      split_ifs
      · exact emitsAt_pure _
      · exact emitsAt_fail _
      · refine emitsAt_bind ?_ fun _ _ _ => emitsAt_pure _
        rw [← he] at hc hq
        exact (emitsAt_readBulkBytes hc _).mono (he ▸ hq)
    · refine emitsAt_header hc hp' hq fun line len e hline he hpe hrest => ?_
      rw [parseI64_eq_ok_iff] at hline
      subst h₅
      rw [hrest] at hdrop
      split_ifs with hnull hneg
      · exact emitsAt_pure _
      · exact emitsAt_fail _
      · have hhere : Announces (d.input.drop c.pos) len.toInt.toNat := by
          rw [hdrop]
          exact .here line len _ _ hline (by omega)
        refine emitsAt_bind (emitsAt_emit ⟨trivial, ?_⟩) fun _ k hk => ?_
        · rintro n hn
          cases hn
          exact hhere
        · have hki : k.input = d.input ∧ k.pos = e.pos := by
            cases hk
            exact ⟨he, rfl⟩
          refine emitsAt_bind ?_ fun _ _ _ => emitsAt_pure _
          -- after `i` rounds, `i` complete elements stand between the header and the cursor
          apply emitsAt_replicate (I := fun i t => t.input = d.input ∧ t.pos ≤ t.input.length ∧
            ∃ values words, List.Forall₂ Derives values words ∧ values.length = i ∧
              e.input.drop e.pos = words.flatten ++ t.input.drop t.pos) _ 0
          · rintro i t hlt ⟨hti, htp, values, words, hv, hlen, hbetween⟩
            refine ⟨(ih (hti ▸ hc) htp).mono ?_, fun a t' ht => ?_⟩
            · rintro v ⟨hr, hn⟩
              refine ⟨hti ▸ hr, fun n hvn => ?_⟩
              rw [hdrop, hbetween]
              exact .inside line len values words _ n hline hv (by omega) (hn n hvn)
            · obtain ⟨hti', w, hw, htd, -⟩ := consumes_parseValue fuel t t' a htp ht
              have htp' := ((consumes_parseValue fuel).pos_le htp ht).2.2
              refine ⟨hti'.trans hti, hti' ▸ htp', values ++ [a], words ++ [w], ?_, ?_, ?_⟩
              · exact List.rel_append hv (.cons hw .nil)
              · rw [List.length_append, hlen, List.length_singleton]
              · rw [hbetween, htd, ← hti']
                simp
          · refine ⟨hki.1, ?_, [], [], .nil, rfl, ?_⟩
            · rw [hki.1, hki.2, ← he]
              exact hpe
            · rw [hki.1, hki.2, ← he]
              rfl
    · exact emitsAt_fail _

end Upper

section Lower

theorem keeps_index (i : ℕ) : Keeps (index i) :=
  keeps_bind (keeps_emit _) fun _ => keeps_bind keeps_cursor fun _ => keeps_pure _

theorem keeps_slice (start stop : ℕ) : Keeps (slice start stop) :=
  keeps_bind (keeps_emit _) fun _ => keeps_bind keeps_cursor fun _ => keeps_pure _

theorem keeps_crlfAt (stop : ℕ) : Keeps (crlfAt stop) := by
  refine keeps_bind (keeps_index stop) fun first => ?_
  split_ifs
  · exact keeps_bind (keeps_emit _) fun _ => keeps_bind (keeps_index _) fun _ => keeps_pure _
  · exact keeps_pure _

theorem keeps_readLineFrom (start fuel stop : ℕ) : Keeps (readLineFrom start fuel stop) := by
  induction fuel generalizing stop with
  | zero => exact keeps_fail _
  | succ fuel ih =>
    refine keeps_bind keeps_cursor fun p => keeps_bind (keeps_emit _) fun _ => ?_
    split_ifs
    · refine keeps_bind (keeps_crlfAt stop) fun found => ?_
      split_ifs
      · exact keeps_bind (keeps_emit _) fun _ => keeps_bind (keeps_seek _) fun _ => keeps_slice _ _
      · exact keeps_bind (keeps_emit _) fun _ => ih (stop + 1)
    · exact keeps_fail _

theorem keeps_readByte : Keeps readByte := by
  refine keeps_bind keeps_cursor fun p => ?_
  cases p.input[p.pos]? with
  | none => exact keeps_fail _
  | some byte =>
    exact keeps_bind (keeps_emit _) fun _ => keeps_bind (keeps_seek _) fun _ => keeps_pure _

theorem keeps_readBulkBytes (len : ℕ) : Keeps (readBulkBytes len) := by
  refine keeps_bind keeps_cursor fun p => ?_
  cases hstop : checkedAdd p.pos len with
  | none => simpa only [hstop] using keeps_fail _
  | some stop =>
  cases hend : checkedAdd stop 2 with
  | none => simpa only [hstop, hend] using keeps_fail _
  | some crlfEnd =>
  simp only [hstop, hend]
  split_ifs
  · exact keeps_fail _
  · refine keeps_bind (keeps_crlfAt stop) fun terminated => ?_
    split_ifs
    · exact keeps_bind (keeps_seek _) fun _ => keeps_slice _ _
    · exact keeps_fail _

theorem keeps_header {α β : Type} (r : Bytes → Except ProtocolError α) {g : α → ParseM β}
    (hg : ∀ a, Keeps (g a)) : Keeps (header r g) :=
  keeps_bind (keeps_bind keeps_cursor fun _ => keeps_readLineFrom _ _ _) fun _ =>
    keeps_bind (keeps_lift _) hg

theorem keeps_parseValue (fuel : ℕ) : Keeps (parseValue fuel) := by
  induction fuel with
  | zero => exact keeps_fail _
  | succ fuel ih =>
    refine keeps_bind keeps_readByte fun b => ?_
    split_ifs
    · exact keeps_header parseText fun _ => keeps_pure _
    · exact keeps_header parseText fun _ => keeps_pure _
    · exact keeps_header parseI64 fun _ => keeps_pure _
    · refine keeps_header parseI64 fun len => ?_
      split_ifs
      · exact keeps_pure _
      · exact keeps_fail _
      · exact keeps_bind (keeps_readBulkBytes _) fun _ => keeps_pure _
    · refine keeps_header parseI64 fun len => ?_
      split_ifs
      · exact keeps_pure _
      · exact keeps_fail _
      · exact keeps_bind (keeps_emit _) fun _ =>
          keeps_bind (keeps_replicate ih _) fun _ => keeps_pure _
    · exact keeps_fail _

/-- The run of a value that starts with an array header, up to the header's end. -/
theorem parseValue_array_header (fuel : ℕ) {line : Bytes} {len : Int64} (h : IntLine line len)
    (pre rest : Bytes) (ev : List Event)
    (hl : (pre ++ (42 :: (line ++ crlf ++ rest))).length ≤ isizeMax) :
    ∃ ev', parseValue (fuel + 1) ⟨pre ++ (42 :: (line ++ crlf ++ rest)), pre.length, ev⟩ =
      arrayBody (parseValue fuel) len
        ⟨pre ++ (42 :: (line ++ crlf ++ rest)), pre.length + (line.length + 3), ev'⟩ := by
  have hbyte : Reads isizeMax readByte [42] 42 := reads_readByte 42
  have hread : Reads isizeMax readLine (line ++ crlf) line := reads_readLine h.noCrlf
  obtain ⟨ev₁, h₁⟩ := hbyte pre (line ++ crlf ++ rest) ev hl
  obtain ⟨ev₂, h₂⟩ := hread (pre ++ [42]) rest ev₁ (by simpa using hl)
  have hi : parseI64 line = .ok len := (parseI64_eq_ok_iff _ _).mpr h
  simp only [List.append_assoc, List.singleton_append, List.length_append, List.length_cons, List.length_nil, crlf] at h₁ h₂ ⊢
  refine ⟨ev₂, ?_⟩
  rw [parseValue, bind_ok h₁]
  simp only [show (42 : UInt8) ≠ 43 by decide, show (42 : UInt8) ≠ 45 by decide,
    show (42 : UInt8) ≠ 58 by decide, show (42 : UInt8) ≠ 36 by decide, if_false, if_true]
  rw [parseArray_eq, header, bind_ok h₂, bind_ok (show lift (parseI64 line) _ = (.ok len, _) by
    rw [hi]; rfl)]
  congr 2
  omega

/-- Every announced length is reserved. -/
theorem reserve_mem_of_announces {s : Bytes} {n : ℕ} (h : Announces s n) :
    ∀ (fuel : ℕ) (pre : Bytes) (ev : List Event), s.length < fuel →
      (pre ++ s).length ≤ isizeMax →
      .reserve n ∈ (parseValue fuel ⟨pre ++ s, pre.length, ev⟩).2.events := by
  induction h with
  | here line len n rest h hlen =>
    intro fuel pre ev hf hl
    obtain ⟨fuel, rfl⟩ := Nat.exists_eq_succ_of_ne_zero (Nat.ne_zero_of_lt hf)
    obtain ⟨ev', hrun⟩ := parseValue_array_header fuel h pre rest ev hl
    rw [hrun, arrayBody, if_neg (by omega), if_neg (by omega)]
    refine mem_events_bind rfl ?_
    apply keeps_bind (keeps_replicate (keeps_parseValue fuel) _) fun _ => keeps_pure _
    simp [hlen]
  | inside line len values words rest n h hv hlen hr ih =>
    intro fuel pre ev hf hl
    obtain ⟨fuel, rfl⟩ := Nat.exists_eq_succ_of_ne_zero (Nat.ne_zero_of_lt hf)
    obtain ⟨ev', hrun⟩ := parseValue_array_header fuel h pre (words.flatten ++ rest) ev hl
    rw [hrun, arrayBody, if_neg (by omega), if_neg (by omega)]
    refine mem_events_bind rfl (mem_events_bind_left ?_ fun _ => keeps_pure _)
    -- the elements before the announced one are read back, with `fuel` enough for each
    have hwords : List.Forall₂ (fun f w => Reads isizeMax (parseValue fuel) w f) values words := by
      obtain ⟨hlen, hzip⟩ := List.forall₂_iff_zip.mp hv
      refine List.forall₂_iff_zip.mpr ⟨hlen, fun hab => reads_parseValue _ _ _ (hzip hab) ?_⟩
      have := (List.sublist_flatten_of_mem (List.of_mem_zip hab).2).length_le
      simp only [List.length_cons, List.length_append] at hf
      omega
    have hinput : pre ++ (42 :: (line ++ crlf ++ (words.flatten ++ rest))) =
        (pre ++ (42 :: (line ++ crlf))) ++ (words.flatten ++ rest) := by simp
    have hpos : pre.length + (line.length + 3) = (pre ++ (42 :: (line ++ crlf))).length := by
      simp [crlf]
    rw [hinput] at hl ⊢
    rw [hpos]
    apply mem_events_replicate (keeps_parseValue fuel) hwords (by omega) _ _ hl
    intro ev
    rw [← List.append_assoc] at hl ⊢
    refine ih fuel _ ev ?_ hl
    simp only [List.length_cons, List.length_append] at hf
    omega

end Lower

/-- No index, slice or sum of a run is out of range, on any input. -/
theorem runParser_inRange (x : Bytes) (hx : x.length ≤ isizeMax) :
    ∀ event ∈ (runParser x).2.events, event.InRange x := by
  intro event hev
  rcases emitsAt_parseValue (c := ⟨x, 0, []⟩) (x.length + 1) hx (Nat.zero_le _) event hev
    with h | h
  · simp at h
  · exact h.1

/-- The capacities reserved in a run are exactly the announced array lengths. -/
theorem reserve_mem_iff (x : Bytes) (hx : x.length ≤ isizeMax) (n : ℕ) :
    .reserve n ∈ (runParser x).2.events ↔ Announces x n := by
  constructor
  · intro hev
    rcases emitsAt_parseValue (c := ⟨x, 0, []⟩) (x.length + 1) hx (Nat.zero_le _) _ hev with h | h
    · simp at h
    · exact h.2 n rfl
  · intro h
    exact reserve_mem_of_announces h (x.length + 1) [] [] (Nat.lt_succ_self _) hx

/-- A run that goes well: everything in range, no capacity above the length of the
input, and a result instead of a panic. -/
def RunSafe (elementSize : ℕ) (x : Bytes) : Prop :=
  (∀ event ∈ (runParser x).2.events, event.InRange x) ∧
    (∀ n, .reserve n ∈ (runParser x).2.events → n ≤ x.length) ∧
    parseRespOrPanic elementSize x = some (parseResp x)

/-- A result is that of a run without a panic. -/
theorem parseRespOrPanic_ok {elementSize : ℕ} {x : Bytes}
    {result : Except ProtocolError (RespFrame × ℕ)}
    (h : parseRespOrPanic elementSize x = some result) :
    parseResp x = result ∧ parseRespOrPanic elementSize x = some (parseResp x) := by
  unfold parseRespOrPanic at h ⊢
  split_ifs at h ⊢
  exact ⟨Option.some.inj h, rfl⟩

/-- The parser does not panic exactly when every announced array fits in an allocation. -/
theorem parseRespOrPanic_eq_iff (elementSize : ℕ) (x : Bytes) (hx : x.length ≤ isizeMax) :
    parseRespOrPanic elementSize x = some (parseResp x) ↔
      ∀ n, Announces x n → n * elementSize ≤ isizeMax := by
  have hin := runParser_inRange x hx
  have hres := reserve_mem_iff x hx
  rw [parseRespOrPanic, Option.ite_none_left_eq_some]
  simp only [not_exists, not_and, and_true]
  constructor
  · intro h n hn
    have hp := h _ ((hres n).mpr hn)
    simpa [Event.Panics] using hp
  · rintro h event hev hp
    cases event with
    | reserve n =>
      have := h n ((hres n).mp hev)
      simp only [Event.Panics] at hp
      omega
    | _ => exact hp (hin _ hev)

section Complete

theorem line_unique {l l' r r' : Bytes} (hl : NoCrlf l) (hl' : NoCrlf l')
    (h : l ++ crlf ++ r = l' ++ crlf ++ r') : l = l' ∧ r = r' := by
  rw [List.append_assoc, List.append_assoc] at h
  have hlen : l.length = l'.length := by
    have := firstCrlf_append l r hl
    rw [h, firstCrlf_append l' r' hl'] at this
    exact (Option.some.inj this).symm
  obtain ⟨rfl, hr⟩ := List.append_inj h hlen
  exact ⟨rfl, List.append_cancel_left hr⟩

theorem intLine_unique {line : Bytes} {number number' : Int64} (h : IntLine line number)
    (h' : IntLine line number') : number = number' := by
  have hp := (parseI64_eq_ok_iff _ _).mpr h
  rw [(parseI64_eq_ok_iff _ _).mpr h'] at hp
  cases hp
  rfl

theorem forall₂_append_left {vs vs' : List RespFrame} {ws : List Bytes}
    (h : List.Forall₂ Derives (vs ++ vs') ws) : ∃ us us', List.Forall₂ Derives vs us ∧
      List.Forall₂ Derives vs' us' ∧ ws = us ++ us' := by
  induction vs generalizing ws with
  | nil => exact ⟨[], ws, .nil, h, rfl⟩
  | cons v vs ih =>
    cases h with
    | @cons _ w _ ws hd h =>
      obtain ⟨us, us', h₁, h₂, rfl⟩ := ih h
      exact ⟨w :: us, us', .cons hd h₁, h₂, rfl⟩

/-- A frame at the front of the input ends at one place only. -/
theorem derives_unique {f f' : RespFrame} {w w' r r' : Bytes} (hd : Derives f w)
    (hd' : Derives f' w') (h : w ++ r = w' ++ r') (hl : (w ++ r).length ≤ isizeMax) :
    f = f' ∧ w = w' ∧ r = r' := by
  have hp := parseResp_derives hd hl
  rw [h, parseResp_derives hd' (h ▸ hl)] at hp
  simp only [Except.ok.injEq, Prod.mk.injEq] at hp
  obtain ⟨hw, hr⟩ := List.append_inj h hp.2.symm
  exact ⟨hp.1.symm, hw, hr⟩

/-- Behind fewer elements than an array has, the next element begins. -/
theorem next_element {vs vs' : List RespFrame} {ws ws' : List Bytes} {r r' : Bytes}
    (hv : List.Forall₂ Derives vs ws) (hv' : List.Forall₂ Derives vs' ws')
    (hlt : vs.length < vs'.length) (h : ws.flatten ++ r = ws'.flatten ++ r')
    (hl : (ws.flatten ++ r).length ≤ isizeMax) :
    ∃ v w r'', v ∈ vs' ∧ Derives v w ∧ r = w ++ r'' := by
  induction hv generalizing vs' ws' with
  | nil =>
    cases hv' with
    | nil => simp at hlt
    | @cons v w vs' ws' hd hv' => exact ⟨v, w, ws'.flatten ++ r', by simp, hd, by simpa using h⟩
  | cons hd hv ih =>
    cases hv' with
    | nil => simp at hlt
    | cons hd' hv' =>
      simp only [List.flatten_cons, List.append_assoc, List.length_cons] at h hl hlt
      obtain ⟨-, rfl, hrest⟩ := derives_unique hd hd' h hl
      obtain ⟨v, w, r'', hmem, hw, hr⟩ := ih hv' (by omega) hrest (by
        rw [List.length_append] at hl
        omega)
      exact ⟨v, w, r'', List.mem_cons_of_mem _ hmem, hw, hr⟩

theorem Announces.append {s : Bytes} {n : ℕ} (h : Announces s n) (t : Bytes) :
    Announces (s ++ t) n := by
  induction h with
  | here line len n rest h hlen =>
    simpa using Announces.here line len n (rest ++ t) h hlen
  | inside line len values words rest n h hv hlen _ ih =>
    simpa using Announces.inside line len values words (rest ++ t) n h hv hlen ih

/-- What is announced where a frame stands is an array of the frame. -/
theorem holdsArray_of_announces {s : Bytes} {n : ℕ} (h : Announces s n) {f : RespFrame}
    {w rest : Bytes} (hd : Derives f w) (hs : s = w ++ rest) (hl : s.length ≤ isizeMax) :
    HoldsArray f n := by
  induction h generalizing f w rest with
  | here line len n rest' h hlen =>
    cases hd with
    | array line' len' values words h' hlen' hv =>
      simp only [List.cons_append, List.cons.injEq, true_and, List.append_assoc] at hs
      obtain ⟨rfl, -⟩ := line_unique h.noCrlf h'.noCrlf (by simpa using hs)
      obtain rfl := intLine_unique h h'
      obtain rfl : n = values.length := by omega
      exact .here values
    | null mark hm line' len' h' hlen' =>
      simp only [List.cons_append, List.cons.injEq, List.append_assoc] at hs
      obtain ⟨rfl, -⟩ := line_unique h.noCrlf h'.noCrlf (by simpa using hs.2)
      obtain rfl := intLine_unique h h'
      omega
    | _ => simp at hs
  | inside line len values words rest' n h hv hlen hr ih =>
    cases hd with
    | array line' len' values' words' h' hlen' hv' =>
      simp only [List.cons_append, List.cons.injEq, true_and, List.append_assoc] at hs
      obtain ⟨rfl, hrest⟩ := line_unique h.noCrlf h'.noCrlf (by simpa using hs)
      obtain rfl := intLine_unique h h'
      simp only [List.length_cons, List.length_append] at hl
      obtain ⟨v, w, r, hmem, hw, rfl⟩ := next_element hv hv' (by omega) hrest (by
        rw [List.length_append]
        omega)
      exact .inside values' v n hmem (ih hw rfl (by omega))
    | null mark hm line' len' h' hlen' =>
      simp only [List.cons_append, List.cons.injEq, List.append_assoc] at hs
      obtain ⟨rfl, -⟩ := line_unique h.noCrlf h'.noCrlf (by simpa using hs.2)
      obtain rfl := intLine_unique h h'
      omega
    | _ => simp at hs

/-- Every array of a frame is announced where the frame stands. -/
theorem announces_of_holdsArray {f : RespFrame} {n : ℕ} (h : HoldsArray f n) {w : Bytes}
    (hd : Derives f w) : Announces w n := by
  induction h generalizing w with
  | here values =>
    cases hd with
    | array line len values words hline hlen hv => exact .here line len _ _ hline hlen
  | inside values v n hmem _ ih =>
    cases hd with
    | array line len values words hline hlen hv =>
      obtain ⟨before, after, rfl⟩ := List.append_of_mem hmem
      obtain ⟨ws, ws', hbefore, hafter, rfl⟩ := forall₂_append_left hv
      cases hafter with
      | @cons _ w _ ws' hw hafter =>
        have hin := (ih hw).append ws'.flatten
        have hlt : (before.length : ℤ) < len.toInt := by
          rw [hlen, List.length_append, List.length_cons]
          omega
        simpa using Announces.inside line len before ws _ n hline hbefore hlt hin

/-- An array in a complete frame takes at least one byte for each element. -/
theorem HoldsArray.le_length {f : RespFrame} {n : ℕ} (h : HoldsArray f n) {w : Bytes}
    (hd : Derives f w) : n ≤ w.length := by
  induction h generalizing w with
  | here values =>
    cases hd with
    | array line len values words hline hlen hv =>
      have := length_le_flatten hv
      simp only [List.length_cons, List.length_append]
      omega
  | inside values v n hmem _ ih =>
    cases hd with
    | array line len values words hline hlen hv =>
      obtain ⟨before, after, rfl⟩ := List.append_of_mem hmem
      obtain ⟨ws, ws', -, hafter, rfl⟩ := forall₂_append_left hv
      cases hafter with
      | @cons _ w _ ws' hw hafter =>
        have := ih hw
        simp only [List.flatten_append, List.flatten_cons, List.length_cons, List.length_append]
        omega

theorem arraysFit_of_length {elementSize : ℕ} {f : RespFrame} {w : Bytes} (hd : Derives f w)
    (hw : w.length * elementSize ≤ isizeMax) : ArraysFit elementSize f :=
  fun _ hn => (Nat.mul_le_mul_right _ (hn.le_length hd)).trans hw

/-- A frame whose arrays fit in memory is parsed without a panic, in front of anything. -/
theorem parseRespOrPanic_of_fits {elementSize : ℕ} {f : RespFrame} {w rest : Bytes}
    (hd : Derives f w) (hf : ArraysFit elementSize f) (hl : (w ++ rest).length ≤ isizeMax) :
    parseRespOrPanic elementSize (w ++ rest) = some (.ok (f, w.length)) := by
  rw [← parseResp_derives hd hl, parseRespOrPanic_eq_iff elementSize _ hl]
  exact fun n hn => hf n (holdsArray_of_announces hn hd rfl hl)

/-- And a proper prefix of it is incomplete, without a panic. -/
theorem parseRespOrPanic_prefix_of_fits {elementSize : ℕ} {f : RespFrame} {w p : Bytes}
    (hd : Derives f w) (hf : ArraysFit elementSize f) (hl : w.length ≤ isizeMax)
    (hp : p <+: w) (hne : p ≠ w) : parseRespOrPanic elementSize p = some (.error .incomplete) := by
  rw [← parseResp_prefix hd hl hp hne,
    parseRespOrPanic_eq_iff elementSize _ (hp.length_le.trans hl)]
  obtain ⟨t, rfl⟩ := hp
  exact fun n hn => hf n (holdsArray_of_announces (hn.append t) hd (List.append_nil _).symm hl)

theorem parseRespOrPanic_derives {elementSize : ℕ} {f : RespFrame} {w rest : Bytes}
    (hd : Derives f w) (hw : w.length * elementSize ≤ isizeMax)
    (hl : (w ++ rest).length ≤ isizeMax) :
    parseRespOrPanic elementSize (w ++ rest) = some (.ok (f, w.length)) :=
  parseRespOrPanic_of_fits hd (arraysFit_of_length hd hw) hl

theorem parseRespOrPanic_prefix {elementSize : ℕ} {f : RespFrame} {w p : Bytes}
    (hd : Derives f w) (hw : w.length * elementSize ≤ isizeMax) (hl : w.length ≤ isizeMax)
    (hp : p <+: w) (hne : p ≠ w) : parseRespOrPanic elementSize p = some (.error .incomplete) :=
  parseRespOrPanic_prefix_of_fits hd (arraysFit_of_length hd hw) hl hp hne

end Complete

/-- A run goes well exactly when every array length that the input announces is at most
the length of the input, and that many elements fit in an allocation. The parser recurses once for
each level of nesting; the stack is taken to hold that. -/
theorem runSafe_iff (elementSize : ℕ) (x : Bytes) (hx : x.length ≤ isizeMax) :
    RunSafe elementSize x ↔
      ∀ n, Announces x n → n ≤ x.length ∧ n * elementSize ≤ isizeMax := by
  have hres := reserve_mem_iff x hx
  rw [RunSafe, parseRespOrPanic_eq_iff elementSize x hx]
  constructor
  · rintro ⟨-, hlen, hsize⟩ n hn
    exact ⟨hlen n ((hres n).mpr hn), hsize n hn⟩
  · intro h
    exact ⟨runParser_inRange x hx, fun n hn => (h n ((hres n).mp hn)).1, fun n hn => (h n hn).2⟩

def hugeArray : Bytes := asBytes "*9223372036854775807\r\n"

theorem runSafe_iff_hugeArray : hugeArray.length ≤ isizeMax ∧ (RunSafe 24 hugeArray ↔
    ∀ n, Announces hugeArray n → n ≤ hugeArray.length ∧ n * 24 ≤ isizeMax) :=
  have h : hugeArray.length ≤ isizeMax := by decide +kernel
  ⟨h, runSafe_iff 24 hugeArray h⟩

/-- Twenty-two bytes make the parser reserve `2^63 - 1` elements, which panics. -/
theorem not_runSafe_hugeArray : ¬ RunSafe 24 hugeArray := by
  rintro ⟨-, hlen, -⟩
  have h : .reserve (2^63 - 1) ∈ (runParser hugeArray).2.events := by decide +kernel
  exact absurd (hlen _ h) (by decide +kernel)

end RustKV

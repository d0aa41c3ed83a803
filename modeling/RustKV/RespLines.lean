import RustKV.RespParser

/-! The three helpers of the parser that look at the input: one byte, one line up
to CRLF, and a counted run of bytes. For each, what it computes, which words it
reads, and that its verdict is stable when more bytes arrive. -/
namespace RustKV
open Decimal Reader

/-- Text in which no CR is immediately followed by LF. -/
def NoCrlf (l : Bytes) : Prop := ¬ crlf <:+: l

instance (l : Bytes) : Decidable (NoCrlf l) := inferInstanceAs (Decidable (¬ _))

theorem noCrlf_of_forall {l : Bytes} (h : ∀ x ∈ l, x ≠ 13) : NoCrlf l := by
  rintro hi
  exact h 13 (hi.subset (by simp [crlf])) rfl

/-- The position of the first CRLF. -/
def firstCrlf : Bytes → Option ℕ
  | [] => none
  | x :: xs => if x = 13 ∧ xs.head? = some 10 then some 0 else (firstCrlf xs).map (· + 1)

theorem firstCrlf_append (l rest : Bytes) (h : NoCrlf l) :
    firstCrlf (l ++ (crlf ++ rest)) = some l.length := by
  induction l with
  | nil => simp [firstCrlf, crlf]
  | cons x l ih =>
    have hl : NoCrlf l := fun hi => h (hi.trans (List.suffix_cons x l).isInfix)
    have hx : ¬ (x = 13 ∧ (l ++ (crlf ++ rest)).head? = some 10) := by
      rintro ⟨rfl, hh⟩
      cases l with
      | nil => simp [crlf] at hh
      | cons y l =>
        simp only [List.cons_append, List.head?_cons, Option.some.injEq] at hh
        subst hh
        exact h ⟨[], l, rfl⟩
    rw [List.cons_append, firstCrlf, if_neg hx, ih hl]
    simp

theorem firstCrlf_eq_some {s : Bytes} {i : ℕ} (h : firstCrlf s = some i) :
    ∃ l rest, s = l ++ (crlf ++ rest) ∧ NoCrlf l ∧ l.length = i := by
  induction s generalizing i with
  | nil => simp [firstCrlf] at h
  | cons x xs ih =>
    rw [firstCrlf] at h
    split at h
    · rename_i hx
      obtain ⟨rfl, hh⟩ := hx
      obtain ⟨ys, rfl⟩ : ∃ ys, xs = 10 :: ys := by
        cases xs with
        | nil => simp at hh
        | cons y ys => exact ⟨ys, by simpa using hh⟩
      refine ⟨[], ys, rfl, ?_, by simpa using h⟩
      simp [NoCrlf, crlf]
    · rename_i hx
      obtain ⟨j, hj, rfl⟩ := Option.map_eq_some_iff.mp h
      obtain ⟨l, rest, rfl, hl, rfl⟩ := ih hj
      refine ⟨x :: l, rest, rfl, ?_, rfl⟩
      intro hi
      rcases List.infix_cons_iff.mp hi with hp | hp
      · obtain ⟨t, ht⟩ := hp
        simp only [crlf, List.cons_append, List.nil_append, List.cons.injEq] at ht
        obtain ⟨rfl, rfl⟩ := ht
        exact hx ⟨rfl, rfl⟩
      · exact hl hp

theorem firstCrlf_isPrefix {s t : Bytes} {i : ℕ} (h : firstCrlf s = some i) (hp : s <+: t) :
    firstCrlf t = some i := by
  obtain ⟨l, rest, rfl, hl, rfl⟩ := firstCrlf_eq_some h
  obtain ⟨u, rfl⟩ := hp
  rw [List.append_assoc, List.append_assoc]
  exact firstCrlf_append l (rest ++ u) hl

section Helpers

theorem crlfAt_apply (stop : ℕ) (c : RespParser) :
    ∃ ev, crlfAt stop c = (.ok (decide (byteAt c.input stop = 13 ∧
      byteAt c.input (stop + 1) = 10)), ⟨c.input, c.pos, ev⟩) := by
  by_cases h : byteAt c.input stop = 13
  · refine ⟨.index (stop + 1) :: .add stop 1 :: .index stop :: c.events, ?_⟩
    simp [crlfAt, index, bind_apply, h]
  · refine ⟨.index stop :: c.events, ?_⟩
    simp [crlfAt, index, bind_apply, h]

theorem drop_byteAt (s : Bytes) (i : ℕ) (h : i < s.length) :
    s.drop i = byteAt s i :: s.drop (i + 1) := by
  rw [List.drop_eq_getElem_cons h]
  simp [byteAt, h]

theorem firstCrlf_short (s : Bytes) (h : s.length ≤ 1) : firstCrlf s = none := by
  cases hs : firstCrlf s with
  | none => rfl
  | some i =>
    obtain ⟨l, rest, rfl, _⟩ := firstCrlf_eq_some hs
    simp only [crlf, List.length_append, List.length_cons, List.length_nil] at h
    omega

/-- The loop of `read_line` stops at the first CRLF at or after `stop`. -/
theorem readLineFrom_apply (start fuel stop : ℕ) (c : RespParser)
    (hf : c.input.length < stop + fuel) :
    ∃ ev, readLineFrom start fuel stop c =
      match firstCrlf (c.input.drop stop) with
      | some i => (.ok ((c.input.take (stop + i)).drop start), ⟨c.input, stop + i + 2, ev⟩)
      | none => (.error .incomplete, ⟨c.input, c.pos, ev⟩) := by
  induction fuel generalizing stop c with
  | zero =>
    rw [List.drop_eq_nil_of_le (by omega)]
    exact ⟨c.events, rfl⟩
  | succ fuel ih =>
    by_cases hs : stop + 1 < c.input.length
    · obtain ⟨ev, hev⟩ := crlfAt_apply stop ⟨c.input, c.pos, .add stop 1 :: c.events⟩
      have hhead : (c.input.drop (stop + 1)).head? = some (byteAt c.input (stop + 1)) := by
        rw [drop_byteAt c.input (stop + 1) hs, List.head?_cons]
      simp only [drop_byteAt c.input stop (by omega), firstCrlf, hhead, Option.some.injEq]
      by_cases hx : byteAt c.input stop = 13 ∧ byteAt c.input (stop + 1) = 10
      · refine ⟨.slice start stop :: .add stop 2 :: ev, ?_⟩
        simp only [decide_eq_true hx] at hev
        rw [if_pos hx]
        simp [readLineFrom, bind_apply, hs, hev, slice]
      · simp only [decide_eq_false hx] at hev
        obtain ⟨ev', hev'⟩ := ih (stop + 1) ⟨c.input, c.pos, .add stop 1 :: ev⟩
          (by simp only; omega)
        refine ⟨ev', ?_⟩
        rw [if_neg hx]
        simp only [readLineFrom, bind_apply, cursor_apply, emit_apply, hs, if_true, hev,
          Bool.false_eq_true, if_false, hev']
        cases firstCrlf (c.input.drop (stop + 1)) with
        | none => rfl
        | some i => simp [Nat.add_comm, Nat.add_left_comm]
    · refine ⟨.add stop 1 :: c.events, ?_⟩
      rw [firstCrlf_short _ (by rw [List.length_drop]; omega)]
      simp [readLineFrom, bind_apply, hs]

theorem readLine_apply (c : RespParser) :
    ∃ ev, readLine c =
      match firstCrlf (c.input.drop c.pos) with
      | some i => (.ok ((c.input.take (c.pos + i)).drop c.pos), ⟨c.input, c.pos + i + 2, ev⟩)
      | none => (.error .incomplete, ⟨c.input, c.pos, ev⟩) :=
  readLineFrom_apply c.pos (c.input.length + 1) c.pos c (by omega)

/-- A line of the input: text without CRLF, then CRLF. -/
def Line (l w : Bytes) : Prop := NoCrlf l ∧ w = l ++ crlf

theorem reads_readLine {limit : ℕ} {l : Bytes} (hl : NoCrlf l) :
    Reads limit readLine (l ++ crlf) l := by
  intro pre post ev _
  obtain ⟨ev', h⟩ := readLine_apply ⟨pre ++ (l ++ crlf ++ post), pre.length, ev⟩
  refine ⟨ev', ?_⟩
  rw [h]
  simp only [List.drop_left, List.append_assoc, firstCrlf_append l post hl]
  simp [List.take_append, crlf, Nat.add_assoc]

theorem consumes_readLine : Consumes readLine Line := by
  intro c d l hc h
  obtain ⟨ev, hr⟩ := readLine_apply c
  rw [h] at hr
  cases hf : firstCrlf (c.input.drop c.pos) with
  | none => simp [hf] at hr
  | some i =>
    obtain ⟨l', rest, hs, hl', rfl⟩ := firstCrlf_eq_some hf
    simp only [hf, Prod.mk.injEq, Except.ok.injEq] at hr
    obtain ⟨rfl, rfl⟩ := hr
    have hi : c.input = c.input.take c.pos ++ (l' ++ (crlf ++ rest)) := by
      rw [← hs, List.take_append_drop]
    have hp : (c.input.take c.pos).length = c.pos := List.length_take_of_le hc
    have hline : (c.input.take (c.pos + l'.length)).drop c.pos = l' := by
      rw [← List.take_drop, hs, List.take_left]
    rw [hline]
    refine ⟨rfl, l' ++ crlf, ⟨hl', rfl⟩, ?_, by simp [crlf, Nat.add_assoc]⟩
    have hd : c.input.drop (c.pos + l'.length + 2) = rest := by
      rw [Nat.add_assoc, ← List.drop_drop, hs]
      simp [crlf]
    rw [hs, hd, List.append_assoc]

theorem stable_readLine : Stable .incomplete readLine := by
  intro c d hc he
  obtain ⟨hp, t, ht⟩ := he
  obtain ⟨ev, hr⟩ := readLine_apply c
  obtain ⟨ev', hr'⟩ := readLine_apply d
  rw [hr, hr', hp, ← ht, List.drop_append_of_le_length hc]
  cases hf : firstCrlf (c.input.drop c.pos) with
  | none =>
    refine ⟨by simp, ?_⟩
    intro e c' h hw
    simp only [Prod.mk.injEq, Except.error.injEq] at h
    exact absurd h.1.symm hw
  | some i =>
    rw [firstCrlf_isPrefix hf (List.prefix_append _ t)]
    obtain ⟨l, rest, hs, _, rfl⟩ := firstCrlf_eq_some hf
    have hlen := congrArg List.length hs
    simp only [List.length_drop, List.length_append, crlf, List.length_cons,
      List.length_nil] at hlen
    refine ⟨?_, by simp⟩
    intro a c' h
    simp only [Prod.mk.injEq, Except.ok.injEq] at h
    obtain ⟨rfl, rfl⟩ := h
    refine ⟨⟨c.input ++ t, c.pos + l.length + 2, ev'⟩, ?_, rfl, List.prefix_append _ t⟩
    simp only [List.take_append_of_le_length (show c.pos + l.length ≤ c.input.length by omega)]

theorem readByte_apply (c : RespParser) :
    readByte c = match c.input[c.pos]? with
      | none => (.error .incomplete, c)
      | some byte => (.ok byte, ⟨c.input, c.pos + 1, .add c.pos 1 :: c.events⟩) := by
  simp only [readByte, bind_apply, cursor_apply]
  cases c.input[c.pos]? <;> simp [bind_apply]

theorem reads_readByte {limit : ℕ} (b : UInt8) : Reads limit readByte [b] b := by
  intro pre post ev _
  refine ⟨.add pre.length 1 :: ev, ?_⟩
  simp [readByte_apply]

theorem consumes_readByte : Consumes readByte (fun b w => w = [b]) := by
  intro c d b hc h
  rw [readByte_apply] at h
  cases hb : c.input[c.pos]? with
  | none => simp [hb] at h
  | some byte =>
    simp only [hb, Prod.mk.injEq, Except.ok.injEq] at h
    obtain ⟨rfl, rfl⟩ := h
    obtain ⟨hlt, hget⟩ := List.getElem?_eq_some_iff.mp hb
    exact ⟨rfl, [byte], rfl, by rw [List.drop_eq_getElem_cons hlt, hget]; rfl, rfl⟩

theorem stable_readByte : Stable .incomplete readByte := by
  intro c d hc he
  obtain ⟨hp, t, ht⟩ := he
  rw [readByte_apply, readByte_apply, hp, ← ht]
  cases hb : c.input[c.pos]? with
  | none =>
    refine ⟨by simp, ?_⟩
    intro e c' h hw
    simp only [Prod.mk.injEq, Except.error.injEq] at h
    exact absurd h.1.symm hw
  | some byte =>
    obtain ⟨hlt, _⟩ := List.getElem?_eq_some_iff.mp hb
    rw [List.getElem?_append_left hlt, hb]
    refine ⟨?_, by simp⟩
    intro a c' h
    simp only [Prod.mk.injEq, Except.ok.injEq] at h
    obtain ⟨rfl, rfl⟩ := h
    exact ⟨_, rfl, rfl, List.prefix_append _ t⟩

theorem readBulkBytes_apply (len : ℕ) (c : RespParser) :
    ∃ ev, readBulkBytes len c =
      if c.pos + len + 2 ≤ usizeMax then
        if c.pos + len + 2 ≤ c.input.length then
          if byteAt c.input (c.pos + len) = 13 ∧ byteAt c.input (c.pos + len + 1) = 10 then
            (.ok ((c.input.take (c.pos + len)).drop c.pos), ⟨c.input, c.pos + len + 2, ev⟩)
          else
            (.error (.invalidFormat "bulk string is not terminated by CRLF"),
              ⟨c.input, c.pos, ev⟩)
        else (.error .incomplete, ⟨c.input, c.pos, ev⟩)
      else (.error (.invalidFormat "bulk string overflow"), ⟨c.input, c.pos, ev⟩) := by
  by_cases hu : c.pos + len + 2 ≤ usizeMax
  · have hstop : checkedAdd c.pos len = some (c.pos + len) := if_pos (by omega)
    have hend : checkedAdd (c.pos + len) 2 = some (c.pos + len + 2) := if_pos hu
    by_cases hl : c.pos + len + 2 ≤ c.input.length
    · have hl' : ¬ c.pos + len + 2 > c.input.length := by omega
      obtain ⟨ev, hev⟩ := crlfAt_apply (c.pos + len) c
      by_cases hx : byteAt c.input (c.pos + len) = 13 ∧ byteAt c.input (c.pos + len + 1) = 10
      · refine ⟨.slice c.pos (c.pos + len) :: ev, ?_⟩
        rw [decide_eq_true hx] at hev
        rw [if_pos hu, if_pos hl, if_pos hx]
        simp [readBulkBytes, bind_apply, hstop, hend, hl', hev, slice]
      · refine ⟨ev, ?_⟩
        rw [decide_eq_false hx] at hev
        rw [if_pos hu, if_pos hl, if_neg hx]
        simp [readBulkBytes, bind_apply, hstop, hend, hl', hev]
    · have hl' : c.pos + len + 2 > c.input.length := by omega
      refine ⟨c.events, ?_⟩
      rw [if_pos hu, if_neg hl]
      simp [readBulkBytes, bind_apply, hstop, hend, hl']
  · refine ⟨c.events, ?_⟩
    rw [if_neg hu]
    by_cases hs : c.pos + len ≤ usizeMax
    · have hstop : checkedAdd c.pos len = some (c.pos + len) := if_pos hs
      have hend : checkedAdd (c.pos + len) 2 = none := if_neg hu
      simp [readBulkBytes, bind_apply, hstop, hend]
    · have hstop : checkedAdd c.pos len = none := if_neg hs
      simp [readBulkBytes, bind_apply, hstop]

theorem reads_readBulkBytes (b : Bytes) :
    Reads isizeMax (readBulkBytes b.length) (b ++ crlf) b := by
  intro pre post ev hl
  obtain ⟨ev', h⟩ := readBulkBytes_apply b.length ⟨pre ++ (b ++ crlf ++ post), pre.length, ev⟩
  refine ⟨ev', ?_⟩
  have hlen : (pre ++ (b ++ crlf ++ post)).length = pre.length + b.length + 2 + post.length := by
    simp [crlf]; omega
  have hmax : isizeMax ≤ usizeMax := by decide
  have hx : byteAt (pre ++ (b ++ crlf ++ post)) (pre.length + b.length) = 13 ∧
      byteAt (pre ++ (b ++ crlf ++ post)) (pre.length + b.length + 1) = 10 := by
    constructor <;> simp [byteAt, crlf, Nat.add_assoc]
  rw [h, if_pos (by simp only; omega), if_pos (by simp only; omega), if_pos hx]
  simp [List.take_append, crlf, Nat.add_assoc]

theorem drop_take_crlf (s : Bytes) (pos len : ℕ) (hl : pos + len + 2 ≤ s.length)
    (hx : byteAt s (pos + len) = 13 ∧ byteAt s (pos + len + 1) = 10) :
    s.drop pos = (s.take (pos + len)).drop pos ++ crlf ++ s.drop (pos + len + 2) := by
  have hd : s.drop (pos + len) = crlf ++ s.drop (pos + len + 2) := by
    rw [drop_byteAt s (pos + len) (by omega), drop_byteAt s (pos + len + 1) (by omega),
      hx.1, hx.2]
    rfl
  rw [List.append_assoc, ← hd, ← List.take_drop, ← List.drop_drop, List.take_append_drop]

theorem consumes_readBulkBytes (len : ℕ) :
    Consumes (readBulkBytes len) (fun b w => b.length = len ∧ w = b ++ crlf) := by
  intro c d b hc h
  obtain ⟨ev, hr⟩ := readBulkBytes_apply len c
  rw [h] at hr
  split_ifs at hr with hu hl hx
  · simp only [Prod.mk.injEq, Except.ok.injEq] at hr
    obtain ⟨rfl, rfl⟩ := hr
    have hlen : ((c.input.take (c.pos + len)).drop c.pos).length = len := by
      rw [List.length_drop, List.length_take_of_le (by omega)]
      omega
    refine ⟨rfl, _, ⟨hlen, rfl⟩, drop_take_crlf c.input c.pos len hl hx, ?_⟩
    rw [List.length_append, hlen]
    rfl
  all_goals simp at hr

theorem stable_readBulkBytes (len : ℕ) : Stable .incomplete (readBulkBytes len) := by
  intro c d hc he
  obtain ⟨hp, t, ht⟩ := he
  obtain ⟨ev, hr⟩ := readBulkBytes_apply len c
  obtain ⟨ev', hr'⟩ := readBulkBytes_apply len d
  rw [hr, hr', hp, ← ht]
  by_cases hu : c.pos + len + 2 ≤ usizeMax
  · by_cases hl : c.pos + len + 2 ≤ c.input.length
    · have hl' : c.pos + len + 2 ≤ (c.input ++ t).length := by
        rw [List.length_append]; omega
      have hb (i : ℕ) (hi : i < c.input.length) : byteAt (c.input ++ t) i = byteAt c.input i := by
        simp [byteAt, List.getElem?_append_left hi]
      rw [if_pos hu, if_pos hu, if_pos hl, if_pos hl', hb _ (by omega), hb _ (by omega)]
      split_ifs with hx
      · refine ⟨?_, by simp⟩
        intro a c' h
        simp only [Prod.mk.injEq, Except.ok.injEq] at h
        obtain ⟨rfl, rfl⟩ := h
        refine ⟨⟨c.input ++ t, c.pos + len + 2, ev'⟩, ?_, rfl, List.prefix_append _ t⟩
        rw [List.take_append_of_le_length (by omega)]
      · refine ⟨by simp, ?_⟩
        intro e c' h _
        simp only [Prod.mk.injEq] at h
        exact ⟨_, by rw [h.1]⟩
    · rw [if_pos hu, if_neg hl]
      refine ⟨by simp, ?_⟩
      intro e c' h hw
      simp only [Prod.mk.injEq, Except.error.injEq] at h
      exact absurd h.1.symm hw
  · rw [if_neg hu, if_neg hu]
    refine ⟨by simp, ?_⟩
    intro e c' h _
    simp only [Prod.mk.injEq] at h
    exact ⟨_, by rw [h.1]⟩

end Helpers

end RustKV

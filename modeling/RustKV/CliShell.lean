import Mathlib.Data.List.DropRight
import Mathlib.Data.List.TakeWhile
import RustKV.Cli

/-! The shell of `rustkv-cli`: how a line is split into arguments. A backslash takes the next
character as it is, inside and outside quotes. -/
namespace RustKV
open Decimal

def backslash : Char := Char.ofNat 92
def doubleQuote : Char := Char.ofNat 34
def singleQuote : Char := Char.ofNat 39

def isQuote (c : Char) : Bool := c = doubleQuote || c = singleQuote

/-- `char::is_whitespace`: the characters with the Unicode property `White_Space`. -/
def isWhitespace (c : Char) : Bool :=
  9 ≤ c.toNat && c.toNat ≤ 13 || c.toNat = 32 || c.toNat = 0x85 || c.toNat = 0xA0 ||
    c.toNat = 0x1680 || 0x2000 ≤ c.toNat && c.toNat ≤ 0x200A || c.toNat = 0x2028 ||
    c.toNat = 0x2029 || c.toNat = 0x202F || c.toNat = 0x205F || c.toNat = 0x3000

/-- The variables of the loop of `split_command_line`. -/
structure SplitState where
  tokens : List String
  current : String
  quote : Option Char
  escaped : Bool
  active : Bool

namespace SplitState

def init : SplitState := ⟨[], "", none, false, false⟩

/-- One round of the loop. -/
def step (s : SplitState) (ch : Char) : SplitState :=
  if s.escaped then
    { s with current := s.current.push ch, active := true, escaped := false }
  else if ch = backslash then
    { s with escaped := true, active := true }
  else
    match s.quote with
    | some quoteCh =>
      if ch = quoteCh then { s with quote := none, active := true }
      else { s with current := s.current.push ch, active := true }
    | none =>
      if isQuote ch then
        { s with quote := some ch, active := true }
      else if isWhitespace ch then
        if s.active then
          { s with tokens := s.tokens ++ [s.current], current := "", active := false }
        else s
      else
        { s with current := s.current.push ch, active := true }

def run (s : SplitState) (text : List Char) : SplitState := text.foldl step s

/-- What follows the loop. -/
def result (s : SplitState) : Except String (List String) :=
  let current := if s.escaped then s.current.push backslash else s.current
  match s.quote with
  | some quoteCh => .error ("missing closing quote " ++ String.singleton quoteCh)
  | none => if s.active then .ok (s.tokens ++ [current]) else .ok s.tokens

end SplitState

def splitCommandLine (input : String) : Except String (List String) :=
  (SplitState.init.run input.toList).result

inductive ShellAction where
  | send (args : List Bytes)
  | clear
  | help
  | quit

def parseShellInput (line : String) : Except String ShellAction := do
  match ← splitCommandLine line with
  | [] => return .help
  | token :: tokens =>
    match token.toLower with
    | "quit" | "exit" => return .quit
    | "clear" => return .clear
    | "help" | "?" => return .help
    | _ => return .send ((token :: tokens).map asBytes)

/-- `str::trim` -/
def trim (s : String) : String :=
  String.ofList ((s.toList.dropWhile isWhitespace).rdropWhile isWhitespace)

/-- What `submit_input` does with the text that was typed; an empty line is ignored. -/
def submitInput (input : String) : Option (Except String ShellAction) :=
  if (trim input).isEmpty then none else some (parseShellInput (trim input))

section Steps
variable {s : SplitState} {text : List Char} {c q : Char}

theorem isWhitespace_backslash : isWhitespace backslash = false := by decide

theorem ne_backslash_of_isWhitespace (h : isWhitespace c = true) : c ≠ backslash := by
  rintro rfl
  exact absurd h (by decide)

theorem ne_backslash_of_isQuote (h : isQuote c = true) : c ≠ backslash := by
  rintro rfl
  exact absurd h (by decide)

theorem not_isQuote_of_isWhitespace (h : isWhitespace c = true) : isQuote c = false := by
  cases hq : isQuote c with
  | false => rfl
  | true =>
    simp only [isQuote, Bool.or_eq_true, decide_eq_true_eq] at hq
    rcases hq with rfl | rfl <;> exact absurd h (by decide)

namespace SplitState

theorem run_append (s : SplitState) (text text' : List Char) :
    s.run (text ++ text') = (s.run text).run text' := List.foldl_append ..

theorem run_cons (s : SplitState) (c : Char) (text : List Char) :
    s.run (c :: text) = (s.step c).run text := rfl

theorem step_escaped (h : s.escaped = true) :
    s.step c = { s with current := s.current.push c, active := true, escaped := false } := by
  rw [step, if_pos h]

theorem step_backslash (h : s.escaped = false) :
    s.step backslash = { s with escaped := true, active := true } := by
  rw [step, if_neg (by simp [h]), if_pos rfl]

theorem step_close (h : s.escaped = false) (hquote : s.quote = some q) (hq : isQuote q = true) :
    s.step q = { s with quote := none, active := true } := by
  rw [step, if_neg (by simp [h]), if_neg (ne_backslash_of_isQuote hq), hquote]
  exact if_pos rfl

theorem step_inside (h : s.escaped = false) (hquote : s.quote = some q) (hc : c ≠ backslash)
    (hne : c ≠ q) : s.step c = { s with current := s.current.push c, active := true } := by
  rw [step, if_neg (by simp [h]), if_neg hc, hquote]
  exact if_neg hne

theorem step_open (h : s.escaped = false) (hquote : s.quote = none) (hq : isQuote q = true) :
    s.step q = { s with quote := some q, active := true } := by
  rw [step, if_neg (by simp [h]), if_neg (ne_backslash_of_isQuote hq), hquote]
  exact if_pos hq

theorem step_whitespace (h : s.escaped = false) (hquote : s.quote = none)
    (hc : isWhitespace c = true) : s.step c = if s.active then
      { s with tokens := s.tokens ++ [s.current], current := "", active := false } else s := by
  rw [step, if_neg (by simp [h]), if_neg (ne_backslash_of_isWhitespace hc), hquote]
  simp only [not_isQuote_of_isWhitespace hc, Bool.false_eq_true, if_false, hc, if_true]

theorem step_plain (h : s.escaped = false) (hquote : s.quote = none) (hc : c ≠ backslash)
    (hq : isQuote c = false) (hw : isWhitespace c = false) :
    s.step c = { s with current := s.current.push c, active := true } := by
  rw [step, if_neg (by simp [h]), if_neg hc, hquote]
  simp only [hq, hw, Bool.false_eq_true, if_false]

end SplitState

end Steps

section Quotes
variable {s : SplitState} {text text' before body : List Char} {q : Char}

/-- What may stand in an open quote `q`: a backslash takes the character after it along, and no
other character is `q`. -/
inductive Inside (q : Char) : List Char → Prop where
  | nil : Inside q []
  | plain (c : Char) (text : List Char) :
      c ≠ backslash → c ≠ q → Inside q text → Inside q (c :: text)
  | escaped (c : Char) (text : List Char) : Inside q text → Inside q (backslash :: c :: text)

/-- A text after which no quote is open and no backslash waits for its character. -/
inductive Outside : List Char → Prop where
  | nil : Outside []
  | plain (c : Char) (text : List Char) :
      c ≠ backslash → isQuote c = false → Outside text → Outside (c :: text)
  | escaped (c : Char) (text : List Char) : Outside text → Outside (backslash :: c :: text)
  | quoted (q : Char) (body text : List Char) :
      isQuote q = true → Inside q body → Outside text → Outside (q :: body ++ q :: text)

/-- A quote `q` was opened outside an escape and is still open where the line ends. -/
def StillOpen (q : Char) (line : List Char) : Prop :=
  ∃ before body, line = before ++ q :: body ∧ isQuote q = true ∧ Outside before ∧
    (Inside q body ∨ ∃ body', body = body' ++ [backslash] ∧ Inside q body')

theorem Inside.append (h : Inside q text) (h' : Inside q text') : Inside q (text ++ text') := by
  induction h with
  | nil => exact h'
  | plain c text hc hq _ ih => exact .plain c _ hc hq ih
  | escaped c text _ ih => exact .escaped c _ ih

theorem Outside.append (h : Outside text) (h' : Outside text') : Outside (text ++ text') := by
  induction h with
  | nil => exact h'
  | plain c text hc hq _ ih => exact .plain c _ hc hq ih
  | escaped c text _ ih => exact .escaped c _ ih
  | quoted q body text hq hbody _ ih =>
    have h := Outside.quoted q body _ hq hbody ih
    simpa only [List.cons_append, List.append_assoc] using h

/-- The loop stays in a quote while it reads what may stand in it. -/
theorem Inside.run (h : Inside q text) (hs : s.escaped = false) (hquote : s.quote = some q) :
    (s.run text).quote = some q ∧ (s.run text).escaped = false := by
  induction h generalizing s with
  | nil => exact ⟨hquote, hs⟩
  | plain c text hc hne _ ih =>
    rw [SplitState.run_cons, SplitState.step_inside hs hquote hc hne]
    exact ih hs hquote
  | escaped c text _ ih =>
    rw [SplitState.run_cons, SplitState.step_backslash hs, SplitState.run_cons,
      SplitState.step_escaped rfl]
    exact ih rfl hquote

theorem Outside.run (h : Outside text) (hs : s.escaped = false) (hquote : s.quote = none) :
    (s.run text).quote = none ∧ (s.run text).escaped = false := by
  induction h generalizing s with
  | nil => exact ⟨hquote, hs⟩
  | plain c text hc hq _ ih =>
    rw [SplitState.run_cons]
    by_cases hw : isWhitespace c = true
    · rw [SplitState.step_whitespace hs hquote hw]
      -- a token ends here or there was none
      split
      · exact ih hs hquote
      · exact ih hs hquote
    · rw [SplitState.step_plain hs hquote hc hq (Bool.eq_false_iff.mpr hw)]
      exact ih hs hquote
  | escaped c text _ ih =>
    rw [SplitState.run_cons, SplitState.step_backslash hs, SplitState.run_cons,
      SplitState.step_escaped rfl]
    exact ih rfl hquote
  | quoted q body text hq hbody _ ih =>
    rw [List.cons_append, SplitState.run_cons, SplitState.step_open hs hquote hq,
      SplitState.run_append, SplitState.run_cons]
    obtain ⟨hquote', hs'⟩ := hbody.run (s := { s with quote := some q, active := true }) hs rfl
    rw [SplitState.step_close hs' hquote' hq]
    exact ih hs' rfl

/-- What the quote and the escape flag of the loop say about the text read so far. -/
def ReadSoFar (text : List Char) : Option Char → Bool → Prop
  | none, false => Outside text
  | none, true => ∃ before, text = before ++ [backslash] ∧ Outside before
  | some q, false => ∃ before body, text = before ++ q :: body ∧ isQuote q = true ∧
      Outside before ∧ Inside q body
  | some q, true => ∃ before body, text = before ++ q :: (body ++ [backslash]) ∧
      isQuote q = true ∧ Outside before ∧ Inside q body

theorem readSoFar_step {c : Char} (h : ReadSoFar text s.quote s.escaped) :
    ReadSoFar (text ++ [c]) (s.step c).quote (s.step c).escaped := by
  rcases hs : s.escaped with _ | _ <;> rcases hquote : s.quote with _ | q <;> rw [hs, hquote] at h
  · -- outside the quotes
    by_cases hc : c = backslash
    · subst hc
      rw [SplitState.step_backslash hs, hquote]
      exact ⟨text, rfl, h⟩
    by_cases hq : isQuote c = true
    · rw [SplitState.step_open hs hquote hq, hs]
      exact ⟨text, [], rfl, hq, h, .nil⟩
    have hq : isQuote c = false := Bool.eq_false_iff.mpr hq
    have hplain : Outside (text ++ [c]) := h.append (.plain c [] hc hq .nil)
    by_cases hw : isWhitespace c = true
    · rw [SplitState.step_whitespace hs hquote hw]
      split <;> rw [hs, hquote] <;> exact hplain
    · rw [SplitState.step_plain hs hquote hc hq (Bool.eq_false_iff.mpr hw), hs, hquote]
      exact hplain
  · -- inside the quote `q`
    obtain ⟨before, body, rfl, hq, hbefore, hbody⟩ := h
    by_cases hc : c = backslash
    · subst hc
      rw [SplitState.step_backslash hs, hquote]
      exact ⟨before, body, by simp, hq, hbefore, hbody⟩
    by_cases hne : c = q
    · subst hne
      rw [SplitState.step_close hs hquote hq, hs]
      have h := hbefore.append (.quoted c body [] hq hbody .nil)
      simpa [ReadSoFar] using h
    · rw [SplitState.step_inside hs hquote hc hne, hs, hquote]
      exact ⟨before, body ++ [c], by simp, hq, hbefore, hbody.append (.plain c [] hc hne .nil)⟩
  · -- after a backslash outside the quotes
    obtain ⟨before, rfl, hbefore⟩ := h
    rw [SplitState.step_escaped hs, hquote]
    have h := hbefore.append (.escaped c [] .nil)
    simpa [ReadSoFar] using h
  · -- after a backslash inside the quote `q`
    obtain ⟨before, body, rfl, hq, hbefore, hbody⟩ := h
    rw [SplitState.step_escaped hs, hquote]
    exact ⟨before, body ++ [backslash, c], by simp, hq, hbefore,
      hbody.append (.escaped c [] .nil)⟩

theorem readSoFar (text : List Char) :
    ReadSoFar text (SplitState.init.run text).quote (SplitState.init.run text).escaped := by
  induction text using List.reverseRecOn with
  | nil => exact Outside.nil
  | append_singleton text c ih =>
    rw [SplitState.run_append]
    exact readSoFar_step ih

theorem result_eq_error {e : String} : s.result = .error e ↔
    ∃ q, s.quote = some q ∧ e = "missing closing quote " ++ String.singleton q := by
  rw [SplitState.result]
  rcases s.quote with _ | q
  · cases s.active <;> simp
  · simp [eq_comm]

theorem stillOpen_iff :
    StillOpen q text ↔ (SplitState.init.run text).quote = some q := by
  constructor
  · rintro ⟨before, body, rfl, hq, hbefore, hbody⟩
    obtain ⟨hquote, hs⟩ := hbefore.run (s := SplitState.init) rfl rfl
    rw [SplitState.run_append, SplitState.run_cons, SplitState.step_open hs hquote hq]
    have hrun (body : List Char) (h : Inside q body) := h.run
      (s := { SplitState.init.run before with quote := some q, active := true }) hs rfl
    rcases hbody with hbody | ⟨body', rfl, hbody⟩
    · exact (hrun body hbody).1
    · -- a backslash at the end leaves the quote as it is
      rw [SplitState.run_append]
      obtain ⟨hquote', hs'⟩ := hrun body' hbody
      rw [SplitState.run_cons, SplitState.step_backslash hs']
      exact hquote'
  · intro hquote
    have h := readSoFar text
    rw [hquote] at h
    cases hs : (SplitState.init.run text).escaped with
    | false =>
      rw [hs] at h
      obtain ⟨before, body, htext, hq, hbefore, hbody⟩ := h
      exact ⟨before, body, htext, hq, hbefore, Or.inl hbody⟩
    | true =>
      rw [hs] at h
      obtain ⟨before, body, htext, hq, hbefore, hbody⟩ := h
      exact ⟨before, body ++ [backslash], htext, hq, hbefore, Or.inr ⟨body, rfl, hbody⟩⟩

theorem splitCommandLine_eq_error {line e : String} : splitCommandLine line = .error e ↔
    ∃ q, StillOpen q line.toList ∧ e = "missing closing quote " ++ String.singleton q := by
  rw [splitCommandLine, result_eq_error]
  simp only [stillOpen_iff]

end Quotes

section Typing
variable {s : SplitState} {gap : List Char}

/-- A character of an argument as it is typed between double quotes. -/
def escapeChar (c : Char) : List Char :=
  if c = backslash ∨ c = doubleQuote then [backslash, c] else [c]

def quoteArg (arg : String) : List Char :=
  doubleQuote :: arg.toList.flatMap escapeChar ++ [doubleQuote]

/-- The line is the quoted arguments with a run of whitespace between each two of them. -/
inductive Typed : List String → List Char → Prop where
  | nothing : Typed [] []
  | last (arg : String) : Typed [arg] (quoteArg arg)
  | more (arg next : String) (args : List String) (gap line : List Char) :
      gap ≠ [] → (∀ c ∈ gap, isWhitespace c = true) → Typed (next :: args) line →
        Typed (arg :: next :: args) (quoteArg arg ++ gap ++ line)

theorem run_escapeChar (c : Char) (hs : s.escaped = false)
    (hquote : s.quote = some doubleQuote) :
    s.run (escapeChar c) = { s with current := s.current.push c, active := true } := by
  by_cases hc : c = backslash ∨ c = doubleQuote
  · rw [escapeChar, if_pos hc, SplitState.run_cons, SplitState.step_backslash hs,
      SplitState.run_cons, SplitState.step_escaped rfl, ← hs]
    rfl
  · rw [escapeChar, if_neg hc]
    obtain ⟨hc, hne⟩ := not_or.mp hc
    exact SplitState.step_inside hs hquote hc hne

/-- The escaped text of an argument adds the argument to the current token. -/
theorem run_escaped (text : List Char) (hs : s.escaped = false)
    (hquote : s.quote = some doubleQuote) (hactive : s.active = true) :
    s.run (text.flatMap escapeChar) =
      { s with current := s.current ++ String.ofList text } := by
  induction text generalizing s with
  | nil => simp [SplitState.run]
  | cons c text ih =>
    have hpush : s.current.push c ++ String.ofList text =
        s.current ++ String.ofList (c :: text) := by
      apply String.toList_inj.mp
      simp
    rw [List.flatMap_cons, SplitState.run_append, run_escapeChar c hs hquote]
    rw [ih (s := { s with current := s.current.push c, active := true }) hs hquote rfl, hpush,
      ← hactive]

theorem run_quoteArg (arg : String) (hs : s.escaped = false) (hquote : s.quote = none) :
    s.run (quoteArg arg) = { s with current := s.current ++ arg, active := true } := by
  have hq : isQuote doubleQuote = true := by decide
  have hbody := run_escaped arg.toList
    (s := { s with quote := some doubleQuote, active := true }) hs rfl rfl
  rw [quoteArg, List.cons_append, SplitState.run_cons, SplitState.step_open hs hquote hq,
    SplitState.run_append, hbody, String.ofList_toList]
  -- the closing quote
  have hclose := SplitState.step_close
    (s := { s with quote := some doubleQuote, current := s.current ++ arg, active := true })
    hs rfl hq
  rw [← hquote] at hclose
  exact hclose

theorem run_whitespace (hgap : ∀ c ∈ gap, isWhitespace c = true) (hs : s.escaped = false)
    (hquote : s.quote = none) (hactive : s.active = false) : s.run gap = s := by
  induction gap with
  | nil => rfl
  | cons c gap ih =>
    rw [SplitState.run_cons, SplitState.step_whitespace hs hquote (hgap c (by simp)),
      if_neg (by simp [hactive])]
    exact ih fun c' hc' => hgap c' (List.mem_cons_of_mem c hc')

/-- A run of whitespace outside the quotes ends the current token. -/
theorem run_gap (hne : gap ≠ []) (hgap : ∀ c ∈ gap, isWhitespace c = true)
    (hs : s.escaped = false) (hquote : s.quote = none) (hactive : s.active = true) :
    s.run gap = { s with tokens := s.tokens ++ [s.current], current := "", active := false } := by
  cases gap with
  | nil => exact absurd rfl hne
  | cons c gap =>
    rw [SplitState.run_cons, SplitState.step_whitespace hs hquote (hgap c (by simp)),
      if_pos hactive]
    exact run_whitespace (fun c' hc' => hgap c' (List.mem_cons_of_mem c hc')) hs hquote rfl

/-- A typed line adds its arguments to the tokens there are, when no token has begun. -/
theorem run_typed {args : List String} {line : List Char} (h : Typed args line)
    (hs : s.escaped = false) (hquote : s.quote = none) (hactive : s.active = false)
    (hcurrent : s.current = "") : (s.run line).result = .ok (s.tokens ++ args) := by
  induction h generalizing s with
  | nothing => simp [SplitState.run, SplitState.result, hquote, hactive]
  | last arg =>
    rw [run_quoteArg arg hs hquote, hcurrent]
    simp [SplitState.result, hs, hquote]
  | more arg next args gap line hne hgap _ ih =>
    have hend := run_gap (s := { s with current := s.current ++ arg, active := true })
      hne hgap hs hquote rfl
    have hrest := ih
      (s := { s with tokens := s.tokens ++ [s.current ++ arg], current := "", active := false })
      hs hquote rfl rfl
    rw [SplitState.run_append, SplitState.run_append, run_quoteArg arg hs hquote, hend, hrest]
    simp [hcurrent]

theorem shell_typing :
    (∀ (args : List String) (line : String), Typed args line.toList →
      splitCommandLine line = .ok args) ∧
    ∀ line : String, (∃ e, splitCommandLine line = .error e) ↔ ∃ q, StillOpen q line.toList := by
  constructor
  · intro args line h
    exact run_typed h rfl rfl rfl rfl
  · intro line
    constructor
    · intro ⟨e, he⟩
      obtain ⟨q, hq, _⟩ := splitCommandLine_eq_error.mp he
      exact ⟨q, hq⟩
    · intro ⟨q, hq⟩
      exact ⟨_, splitCommandLine_eq_error.mpr ⟨q, hq, rfl⟩⟩

/-- An argument with a space, a backslash and a double quote, and an empty argument. -/
theorem shell_typing_sample :
    splitCommandLine (String.ofList (quoteArg "a \\\"" ++ [' '] ++ quoteArg "")) =
      .ok ["a \\\"", ""] := by
  have hgap : ∀ c ∈ [' '], isWhitespace c = true := by
    intro c hc
    rw [List.mem_singleton.mp hc]
    decide
  apply shell_typing.1
  rw [String.toList_ofList]
  exact .more _ _ _ _ _ (by simp) hgap (.last "")

end Typing

section Trimming
variable {s : SplitState} {text gap : List Char}

/-- The line ends in whitespace, and the first of these characters is escaped by a backslash
outside the quotes. -/
def CutsEscape (line : List Char) : Prop :=
  ∃ before gap, line = before ++ backslash :: gap ∧ Outside before ∧ gap ≠ [] ∧
    ∀ c ∈ gap, isWhitespace c = true

theorem outside_whitespace (hgap : ∀ c ∈ gap, isWhitespace c = true) : Outside gap := by
  induction gap with
  | nil => exact .nil
  | cons c gap ih =>
    have hc : isWhitespace c = true := hgap c (by simp)
    exact .plain c gap (ne_backslash_of_isWhitespace hc) (not_isQuote_of_isWhitespace hc)
      (ih fun c' hc' => hgap c' (List.mem_cons_of_mem c hc'))

theorem Outside.dropWhile (h : Outside text) : Outside (text.dropWhile isWhitespace) := by
  induction h with
  | nil => exact .nil
  | plain c text hc hq htext ih =>
    by_cases hw : isWhitespace c = true
    · rw [List.dropWhile_cons_of_pos hw]
      exact ih
    · rw [List.dropWhile_cons_of_neg hw]
      exact .plain c text hc hq htext
  | escaped c text htext _ =>
    rw [List.dropWhile_cons_of_neg (by simp [isWhitespace_backslash])]
    exact .escaped c text htext
  | quoted q body text hq hbody htext _ =>
    have hw : ¬ isWhitespace q = true := by
      intro hw
      simp [not_isQuote_of_isWhitespace hw] at hq
    rw [List.cons_append, List.dropWhile_cons_of_neg hw]
    exact .quoted q body text hq hbody htext

theorem dropWhile_append_backslash (before gap : List Char) :
    (before ++ backslash :: gap).dropWhile isWhitespace =
      before.dropWhile isWhitespace ++ backslash :: gap := by
  have hcons : (backslash :: gap).dropWhile isWhitespace = backslash :: gap :=
    List.dropWhile_cons_of_neg (by simp [isWhitespace_backslash])
  rw [List.dropWhile_append, hcons]
  by_cases hempty : (before.dropWhile isWhitespace).isEmpty = true
  · rw [if_pos hempty, List.isEmpty_iff.mp hempty, List.nil_append]
  · rw [if_neg hempty]

theorem rdropWhile_append_backslash {before : List Char}
    (hgap : ∀ c ∈ gap, isWhitespace c = true) :
    (before ++ backslash :: gap).rdropWhile isWhitespace = before ++ [backslash] := by
  have hreverse : (before ++ backslash :: gap).reverse =
      gap.reverse ++ backslash :: before.reverse := by simp
  rw [List.rdropWhile, hreverse, List.dropWhile_append_of_pos (by simpa using hgap),
    List.dropWhile_cons_of_neg (by simp [isWhitespace_backslash])]
  simp

theorem cutsEscape_dropWhile : CutsEscape (text.dropWhile isWhitespace) ↔ CutsEscape text := by
  constructor
  · intro ⟨before, gap, htext, hbefore, hne, hgap⟩
    have hlead : Outside (text.takeWhile isWhitespace) :=
      outside_whitespace fun c hc => List.mem_takeWhile_imp hc
    refine ⟨text.takeWhile isWhitespace ++ before, gap, ?_, hlead.append hbefore, hne, hgap⟩
    rw [List.append_assoc, ← htext, List.takeWhile_append_dropWhile]
  · rintro ⟨before, gap, rfl, hbefore, hne, hgap⟩
    exact ⟨_, gap, dropWhile_append_backslash before gap, hbefore.dropWhile, hne, hgap⟩

/-- Whitespace in an open quote leaves the quote open. -/
theorem run_whitespace_quoted {q : Char} (hgap : ∀ c ∈ gap, isWhitespace c = true)
    (hquote : s.quote = some q) (hq : isQuote q = true) : (s.run gap).quote = some q := by
  induction gap generalizing s with
  | nil => exact hquote
  | cons c gap ih =>
    have hc : isWhitespace c = true := hgap c (by simp)
    have hne : c ≠ q := by
      rintro rfl
      simp [not_isQuote_of_isWhitespace hc] at hq
    rw [SplitState.run_cons]
    apply ih (fun c' hc' => hgap c' (List.mem_cons_of_mem c hc'))
    cases hs : s.escaped with
    | true => rw [SplitState.step_escaped hs]; exact hquote
    | false =>
      rw [SplitState.step_inside hs hquote (ne_backslash_of_isWhitespace hc) hne]
      exact hquote

/-- Whitespace outside the quotes and not escaped has no effect at the end of a line. -/
theorem result_run_whitespace (hgap : ∀ c ∈ gap, isWhitespace c = true)
    (hs : s.escaped = false) (hquote : s.quote = none) : (s.run gap).result = s.result := by
  cases hactive : s.active with
  | false => rw [run_whitespace hgap hs hquote hactive]
  | true =>
    by_cases hne : gap = []
    · rw [hne, SplitState.run, List.foldl_nil]
    · rw [run_gap hne hgap hs hquote hactive]
      simp [SplitState.result, hs, hquote, hactive]

theorem readSoFar_quote {q : Char} {escaped : Bool} (h : ReadSoFar text (some q) escaped) :
    isQuote q = true := by
  cases escaped with
  | false =>
    obtain ⟨_, _, _, hq, _⟩ := h
    exact hq
  | true =>
    obtain ⟨_, _, _, hq, _⟩ := h
    exact hq

/-- A text with whitespace after it splits as the text alone does, unless a backslash waits for
its character where the text ends. -/
theorem split_append_gap (hgap : ∀ c ∈ gap, isWhitespace c = true)
    (hcut : ¬ CutsEscape (text ++ gap)) :
    (SplitState.init.run (text ++ gap)).result = (SplitState.init.run text).result := by
  have hread := readSoFar text
  rw [SplitState.run_append]
  rcases hquote : (SplitState.init.run text).quote with _ | q
  · rcases hs : (SplitState.init.run text).escaped with _ | _
    · exact result_run_whitespace hgap hs hquote
    · rw [hquote, hs] at hread
      obtain ⟨before, rfl, hbefore⟩ := hread
      by_cases hne : gap = []
      · rw [hne, SplitState.run, List.foldl_nil]
      · exact absurd ⟨before, gap, by simp, hbefore, hne, hgap⟩ hcut
  · rw [hquote] at hread
    have hopen := run_whitespace_quoted hgap hquote (readSoFar_quote hread)
    simp only [SplitState.result, hopen, hquote]

/-- Where the whitespace is escaped, the token the line ends with has a whitespace character for
its last character, and a backslash without the whitespace. -/
theorem split_cut_ne {before : List Char} (hbefore : Outside before) (hne : gap ≠ [])
    (hgap : ∀ c ∈ gap, isWhitespace c = true) :
    (SplitState.init.run (before ++ backslash :: gap)).result ≠
      (SplitState.init.run (before ++ [backslash])).result := by
  obtain ⟨hquote, hs⟩ := hbefore.run (s := SplitState.init) rfl rfl
  generalize hstate : SplitState.init.run before = state at hquote hs
  cases gap with
  | nil => exact absurd rfl hne
  | cons c gap =>
    have hrest : ((state.run [backslash, c]).run gap).result =
        (state.run [backslash, c]).result := by
      apply result_run_whitespace (fun c' hc' => hgap c' (List.mem_cons_of_mem c hc'))
      · rw [SplitState.run_cons, SplitState.step_backslash hs, SplitState.run_cons,
          SplitState.step_escaped rfl]
        rfl
      · rw [SplitState.run_cons, SplitState.step_backslash hs, SplitState.run_cons,
          SplitState.step_escaped rfl]
        exact hquote
    have hlong : (SplitState.init.run (before ++ backslash :: c :: gap)).result =
        .ok (state.tokens ++ [state.current.push c]) := by
      rw [show before ++ backslash :: c :: gap = before ++ ([backslash, c] ++ gap) from rfl,
        SplitState.run_append, hstate, SplitState.run_append, hrest, SplitState.run_cons,
        SplitState.step_backslash hs, SplitState.run_cons, SplitState.step_escaped rfl]
      simp [SplitState.run, SplitState.result, hquote]
    have hshort : (SplitState.init.run (before ++ [backslash])).result =
        .ok (state.tokens ++ [state.current.push backslash]) := by
      rw [SplitState.run_append, hstate, SplitState.run_cons, SplitState.step_backslash hs]
      simp [SplitState.run, SplitState.result, hquote]
    rw [hlong, hshort]
    intro heq
    have hpush : state.current.push c = state.current.push backslash := by simpa using heq
    have hlist := congrArg String.toList hpush
    simp only [String.toList_push, List.append_cancel_left_eq, List.cons.injEq, and_true] at hlist
    exact ne_backslash_of_isWhitespace (hgap c (by simp)) hlist

theorem splitCommandLine_dropWhile (s : String) : splitCommandLine s =
    (SplitState.init.run (s.toList.dropWhile isWhitespace)).result := by
  have hlead : SplitState.init.run (s.toList.takeWhile isWhitespace) = SplitState.init :=
    run_whitespace (fun c hc => List.mem_takeWhile_imp hc) rfl rfl rfl
  calc splitCommandLine s
      = (SplitState.init.run (s.toList.takeWhile isWhitespace ++
          s.toList.dropWhile isWhitespace)).result := by
        rw [List.takeWhile_append_dropWhile, splitCommandLine]
    _ = _ := by rw [SplitState.run_append, hlead]

theorem splitCommandLine_trim_eq (s : String) : splitCommandLine (trim s) = (SplitState.init.run
    ((s.toList.dropWhile isWhitespace).rdropWhile isWhitespace)).result := by
  rw [splitCommandLine, trim, String.toList_ofList]

/-- Nothing is lost if no escaped whitespace ends the line. -/
theorem splitCommandLine_trim {s : String} (hcut : ¬ CutsEscape s.toList) :
    splitCommandLine (trim s) = splitCommandLine s := by
  rw [← cutsEscape_dropWhile] at hcut
  rw [splitCommandLine_dropWhile s, splitCommandLine_trim_eq]
  generalize s.toList.dropWhile isWhitespace = text at hcut ⊢
  have hsplit : text.rdropWhile isWhitespace ++ text.rtakeWhile isWhitespace = text :=
    List.rdropWhile_append_rtakeWhile ..
  have h := @split_append_gap (text.rdropWhile isWhitespace) (text.rtakeWhile isWhitespace)
    (fun c hc => List.mem_rtakeWhile_imp hc) (by rwa [hsplit])
  rw [hsplit] at h
  exact h.symm

theorem splitCommandLine_trim_iff (s : String) :
    splitCommandLine (trim s) = splitCommandLine s ↔ ¬ CutsEscape s.toList := by
  refine ⟨fun heq hcut => ?_, splitCommandLine_trim⟩
  rw [splitCommandLine_dropWhile s, splitCommandLine_trim_eq] at heq
  rw [← cutsEscape_dropWhile] at hcut
  obtain ⟨before, gap, htext, hbefore, hne, hgap⟩ := hcut
  rw [htext, rdropWhile_append_backslash hgap] at heq
  exact split_cut_ne hbefore hne hgap heq.symm

/-- The escaped space that ends the line is lost, and a backslash takes its place. -/
theorem trim_loses_escaped_space :
    splitCommandLine (trim "set k a\\ ") ≠ splitCommandLine "set k a\\ " := by
  decide

theorem trim_isEmpty (s : String) : (trim s).isEmpty = s.toList.all isWhitespace := by
  rw [Bool.eq_iff_iff, List.all_eq_true]
  have htrim : (trim s).isEmpty = true ↔
      (s.toList.dropWhile isWhitespace).rdropWhile isWhitespace = [] := by
    rw [String.isEmpty_iff, trim, String.ofList_eq_empty_iff]
  rw [htrim, List.rdropWhile_eq_nil_iff]
  constructor
  · intro h c hc
    rw [← List.takeWhile_append_dropWhile (p := isWhitespace) (l := s.toList)] at hc
    rcases List.mem_append.mp hc with hc | hc
    · exact List.mem_takeWhile_imp hc
    · exact h c hc
  · exact fun h c hc => h c (List.dropWhile_suffix isWhitespace |>.subset hc)

/-- A line with more than whitespace is understood as it was typed, unless escaped whitespace ends it. -/
theorem submitInput_eq {input : String} (hcut : ¬ CutsEscape input.toList) : submitInput input =
    if input.toList.all isWhitespace then none else some (parseShellInput input) := by
  have hparse : parseShellInput (trim input) = parseShellInput input := by
    unfold parseShellInput
    rw [splitCommandLine_trim hcut]
  rw [submitInput, hparse, trim_isEmpty]

end Trimming

end RustKV

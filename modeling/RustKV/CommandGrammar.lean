import Mathlib.Data.List.TakeWhile
import RustKV.AofRecords

/-! The language of commands: which frames decode to which command. The forms are written down
as a grammar of argument lists, apart from the decoder, and the decoder accepts exactly these. -/
namespace RustKV
open Decimal

section Words
variable {α : Type} {sep : α → Bool} {gap word rest : List α}

/-- The words of a line are the maximal runs of elements that do not separate. -/
inductive Words (sep : α → Bool) : List α → List (List α) → Prop
  | nil {gap : List α} : (∀ x ∈ gap, sep x = true) → Words sep gap []
  | cons {gap word rest : List α} {words : List (List α)} : (∀ x ∈ gap, sep x = true) →
      word ≠ [] → (∀ x ∈ word, sep x = false) → (∀ x ∈ rest.head?, sep x = true) →
      Words sep rest words → Words sep (gap ++ (word ++ rest)) (word :: words)

/-- The pieces of a line that are not empty. -/
def pieces (sep : α → Bool) (line : List α) : List (List α) :=
  (line.splitOnP sep).filter fun word => !word.isEmpty

theorem pieces_gap (hgap : ∀ x ∈ gap, sep x = true) : pieces sep (gap ++ rest) = pieces sep rest := by
  induction gap with
  | nil => rfl
  | cons x gap ih =>
    obtain ⟨hx, hgap⟩ := List.forall_mem_cons.mp hgap
    have hsplit := List.splitOnP_append_cons [] (gap ++ rest) hx
    rw [List.nil_append, List.splitOnP_nil] at hsplit
    rw [List.cons_append, pieces, hsplit, List.filter_append]
    exact ih hgap

theorem pieces_word (hne : word ≠ []) (hword : ∀ x ∈ word, sep x = false)
    (hrest : ∀ x ∈ rest.head?, sep x = true) :
    pieces sep (word ++ rest) = word :: pieces sep rest := by
  have hkeep : (!word.isEmpty) = true := by simpa using hne
  cases rest with
  | nil =>
    rw [List.append_nil, pieces, List.splitOnP_eq_singleton hword]
    simp [pieces, hkeep]
  | cons x rest =>
    have hx : sep x = true := hrest x rfl
    have hgap := @pieces_gap _ _ _ rest (List.forall_mem_singleton.mpr hx)
    rw [List.singleton_append] at hgap
    rw [hgap, pieces, List.splitOnP_append_cons word rest hx, List.splitOnP_eq_singleton hword,
      List.singleton_append]
    exact List.filter_cons_of_pos hkeep

theorem Words.pieces_eq {line : List α} {words : List (List α)} (h : Words sep line words) :
    pieces sep line = words := by
  induction h with
  | @nil gap hgap =>
    have hpieces := @pieces_gap _ _ _ [] hgap
    rw [List.append_nil] at hpieces
    rw [hpieces]
    rfl
  | cons hgap hne hword hrest _ ih => rw [pieces_gap hgap, pieces_word hne hword hrest, ih]

theorem head?_dropWhile {p : α → Bool} (l : List α) : ∀ x ∈ (l.dropWhile p).head?, p x = false := by
  intro x hx
  have hnot := List.head?_dropWhile_not p l
  cases hd : (l.dropWhile p).head? with
  | none => simp [hd] at hx
  | some y =>
    rw [hd] at hx hnot
    cases hx
    simpa using hnot

/-- Every line has words. -/
theorem words_pieces (sep : α → Bool) (line : List α) : Words sep line (pieces sep line) := by
  induction hn : line.length using Nat.strong_induction_on generalizing line with
  | _ n ih =>
    have hgap : ∀ x ∈ line.takeWhile sep, sep x = true := fun x hx => List.mem_takeWhile_imp hx
    have hline : line.takeWhile sep ++ line.dropWhile sep = line := List.takeWhile_append_dropWhile
    by_cases hempty : line.dropWhile sep = []
    · rw [hempty, List.append_nil] at hline
      have hwords := Words.nil hgap
      rw [hline] at hwords
      rwa [hwords.pieces_eq]
    · -- the first word, and what is behind it
      let tail := line.dropWhile sep
      let word := tail.takeWhile fun x => !sep x
      let rest := tail.dropWhile fun x => !sep x
      have htail : word ++ rest = tail := List.takeWhile_append_dropWhile
      have hword : ∀ x ∈ word, sep x = false := by
        intro x hx
        simpa using List.mem_takeWhile_imp hx
      have hrest : ∀ x ∈ rest.head?, sep x = true := by
        intro x hx
        simpa using head?_dropWhile tail x hx
      have hne : word ≠ [] := by
        obtain ⟨y, ys, hy⟩ := List.exists_cons_of_ne_nil hempty
        have hhead := head?_dropWhile line y (by rw [hy]; rfl)
        have hword : word = y :: ys.takeWhile fun x => !sep x := by
          change (line.dropWhile sep).takeWhile _ = _
          rw [hy, List.takeWhile_cons_of_pos (by simpa using hhead)]
        rw [hword]
        apply List.cons_ne_nil
      have hlen : rest.length < n := by
        have hpos := List.length_pos_of_ne_nil hne
        have hsum := congrArg List.length hline
        rw [show line.dropWhile sep = word ++ rest from htail.symm] at hsum
        rw [List.length_append, List.length_append] at hsum
        omega
      have hwords := Words.cons hgap hne hword hrest (ih _ hlen rest rfl)
      rw [htail, hline] at hwords
      rwa [hwords.pieces_eq]

theorem words_iff {line : List α} {words : List (List α)} :
    Words sep line words ↔ pieces sep line = words := by
  constructor
  · exact Words.pieces_eq
  · rintro rfl
    exact words_pieces sep line

end Words

section Grammar

/-- The text of an argument, in any case. -/
def Spells (arg : Bytes) (name : String) : Prop := ∃ text, arg = asBytes text ∧ text.toUpper = name

/-- A number: an optional plus and decimal digits. -/
def Amount (arg : Bytes) (amount : UInt64) : Prop :=
  ∃ ds, (arg = ds ∨ arg = 43 :: ds) ∧ IsNumeral ds amount.toNat

/-- The argument lists of the commands. -/
inductive Form : List Bytes → Command → Prop
  | ping {name : Bytes} : Spells name "PING" → Form [name] .ping
  | set {name : Bytes} (key : String) (value : Bytes) : Spells name "SET" →
      Form [name, asBytes key, value] (.set key value none)
  | setEx {name option arg : Bytes} {amount : UInt64} (key : String) (value : Bytes) :
      Spells name "SET" → Spells option "EX" → Amount arg amount →
      Form [name, asBytes key, value, option, arg] (.set key value (some (.fromSecs amount)))
  | setPx {name option arg : Bytes} {amount : UInt64} (key : String) (value : Bytes) :
      Spells name "SET" → Spells option "PX" → Amount arg amount →
      Form [name, asBytes key, value, option, arg] (.set key value (some (.fromMillis amount)))
  | setPxAt {name option arg : Bytes} {amount : UInt64} (key : String) (value : Bytes) :
      Spells name "SET" → Spells option "PXAT" → Amount arg amount →
      Form [name, asBytes key, value, option, arg] (.setPxAt key value amount)
  | get {name : Bytes} (key : String) : Spells name "GET" → Form [name, asBytes key] (.get key)
  | del {name : Bytes} (keys : List String) : Spells name "DEL" → keys ≠ [] →
      Form (name :: keys.map asBytes) (.del keys)
  | exists' {name : Bytes} (key : String) : Spells name "EXISTS" →
      Form [name, asBytes key] (.exists' key)
  | keys {name : Bytes} : Spells name "KEYS" → Form [name] .keys
  | keysAll {name : Bytes} : Spells name "KEYS" → Form [name, asBytes "*"] .keys
  | expire {name arg : Bytes} {amount : UInt64} (key : String) : Spells name "EXPIRE" →
      Amount arg amount → Form [name, asBytes key, arg] (.expire key amount)
  | expireAt {name arg : Bytes} {amount : UInt64} (key : String) : Spells name "EXPIREAT" →
      Amount arg amount → Form [name, asBytes key, arg] (.expireAt key amount)
  | ttl {name : Bytes} (key : String) : Spells name "TTL" → Form [name, asBytes key] (.ttl key)
  | flushDb {name : Bytes} : Spells name "FLUSHDB" → Form [name] .flushDb
  | info {name : Bytes} : Spells name "INFO" → Form [name] .info

def commandNames : List String :=
  ["PING", "SET", "GET", "DEL", "EXISTS", "KEYS", "EXPIRE", "EXPIREAT", "TTL", "FLUSHDB", "INFO"]

/-- A frame that is a string, with its bytes. -/
inductive StringArg : RespFrame → Bytes → Prop
  | simpleString (text : String) : StringArg (.simpleString text) (asBytes text)
  | bulkString (bytes : Bytes) : StringArg (.bulkString bytes) bytes

/-- The arguments of a frame: the strings of an array, or the words of an inline line. -/
inductive Arguments : RespFrame → List Bytes → Prop
  | array {values : List RespFrame} {args : List Bytes} : List.Forall₂ StringArg values args →
      Arguments (.array values) args
  | simpleString {line : String} {args : List Bytes} :
      Words isAsciiWhitespace (asBytes line) args → args ≠ [] → Arguments (.simpleString line) args
  | bulkString {line : String} {args : List Bytes} :
      Words isAsciiWhitespace (asBytes line) args → args ≠ [] →
      Arguments (.bulkString (asBytes line)) args

end Grammar

section Arguments

theorem argToStr_eq_ok {arg : Bytes} {label text : String} :
    argToStr arg label = .ok text ↔ arg = asBytes text := by
  rw [argToStr]
  constructor
  · intro h
    cases htext : fromUtf8 arg with
    | none =>
      rw [htext] at h
      cases h
    | some text' =>
      rw [htext] at h
      cases h
      exact ((fromUtf8_eq_some_iff arg text).mp htext).symm
  · rintro rfl
    rw [fromUtf8_asBytes]

theorem parseU64Arg_eq_ok {arg : Bytes} {label : String} {amount : UInt64} :
    parseU64Arg arg label = .ok amount ↔ Amount arg amount := by
  constructor
  · intro h
    obtain ⟨text, htext, h⟩ := ok_of_bind h
    rw [argToStr_eq_ok] at htext
    cases hparse : parseUnsigned u64Max (asBytes text) with
    | none =>
      rw [hparse] at h
      cases h
    | some v =>
      rw [hparse] at h
      cases h
      obtain ⟨ds, hds, hv, hle⟩ := parseUnsigned_eq_some_iff.mp hparse
      exact ⟨ds, htext ▸ hds, (u64_toNat_ofNat hle).symm ▸ hv⟩
  · rintro ⟨ds, harg, hds⟩
    have hle : amount.toNat ≤ u64Max := Nat.le_sub_one_of_lt amount.toNat_lt
    have hparse : parseUnsigned u64Max arg = some amount.toNat :=
      parseUnsigned_eq_some_iff.mpr ⟨ds, harg, hds, hle⟩
    obtain ⟨text, htext⟩ := fromUtf8_ascii arg (parseUnsigned_ascii hparse)
    have hbytes := (fromUtf8_eq_some_iff arg text).mp htext
    rw [parseU64Arg, argToStr_eq_ok.mpr hbytes.symm]
    simp only [bind, Except.bind, hbytes, hparse, UInt64.ofNat_toNat]
    rfl

theorem expectArity_eq_ok {args : List Bytes} {expected : ℕ} {command : String} :
    expectArity args expected command = .ok () ↔ args.length = expected := by
  rw [expectArity]
  split_ifs with h
  · exact iff_of_true rfl h
  · apply iff_of_false _ h
    intro herror
    cases herror

theorem respValueToArg_eq_ok {value : RespFrame} {arg : Bytes} :
    respValueToArg value = .ok arg ↔ StringArg value arg := by
  constructor
  · intro h
    cases value with
    | simpleString text =>
      cases h
      exact .simpleString text
    | bulkString bytes =>
      cases h
      exact .bulkString _
    | _ => cases h
  · intro h
    cases h <;> rfl

theorem mapM_eq_ok {α β : Type} {f : α → KvResult β} {as : List α} {bs : List β} :
    as.mapM f = .ok bs ↔ List.Forall₂ (fun a b => f a = .ok b) as bs := by
  induction as generalizing bs with
  | nil =>
    constructor
    · intro h
      cases h
      exact .nil
    · intro h
      cases h
      rfl
  | cons a as ih =>
    rw [List.mapM_cons]
    constructor
    · intro h
      obtain ⟨b, hb, h⟩ := ok_of_bind h
      obtain ⟨bs, hbs, h⟩ := ok_of_bind h
      cases h
      exact .cons hb (ih.mp hbs)
    · intro h
      cases h with
      | cons hb hbs =>
        rw [hb, ih.mpr hbs]
        rfl

theorem inlineLineToArgs_eq_ok {line : String} {args : List Bytes} :
    inlineLineToArgs line = .ok args ↔
      Words isAsciiWhitespace (asBytes line) args ∧ args ≠ [] := by
  rw [words_iff, inlineLineToArgs, ← show splitAsciiWhitespace (asBytes line) = _ from rfl]
  split_ifs with hempty
  · apply iff_of_false nofun
    rintro ⟨rfl, hne⟩
    exact hne (List.isEmpty_iff.mp hempty)
  · constructor
    · intro h
      cases h
      exact ⟨rfl, fun hnil => hempty (List.isEmpty_iff.mpr hnil)⟩
    · rintro ⟨rfl, -⟩
      rfl

/-- What the decoder takes for the arguments of a frame. -/
theorem respToArgs_eq_ok {resp : RespFrame} {args : List Bytes} :
    respToArgs resp = .ok args ↔ Arguments resp args := by
  constructor
  · intro h
    cases resp with
    | array values =>
      refine .array ((mapM_eq_ok.mp h).imp fun value arg harg => ?_)
      exact respValueToArg_eq_ok.mp harg
    | simpleString line =>
      obtain ⟨hwords, hne⟩ := inlineLineToArgs_eq_ok.mp h
      exact .simpleString hwords hne
    | bulkString bytes =>
      rw [respToArgs] at h
      cases hline : fromUtf8 bytes with
      | none =>
        rw [hline] at h
        cases h
      | some line =>
        rw [hline] at h
        obtain ⟨hwords, hne⟩ := inlineLineToArgs_eq_ok.mp h
        rw [← (fromUtf8_eq_some_iff bytes line).mp hline]
        exact .bulkString hwords hne
    | _ => cases h
  · intro h
    cases h with
    | array hargs =>
      exact mapM_eq_ok.mpr (hargs.imp fun value arg harg => respValueToArg_eq_ok.mpr harg)
    | simpleString hwords hne => exact inlineLineToArgs_eq_ok.mpr ⟨hwords, hne⟩
    | bulkString hwords hne =>
      rw [respToArgs, fromUtf8_asBytes]
      exact inlineLineToArgs_eq_ok.mpr ⟨hwords, hne⟩

end Arguments

section Forms
variable {args : List Bytes} {cmd : Command} {command label label' : String}

/-- The commands without arguments. -/
theorem bare_eq_ok {cmd' : Command} :
    (do expectArity args 1 command; return cmd' : KvResult Command) = .ok cmd ↔
      ∃ name, args = [name] ∧ cmd = cmd' := by
  constructor
  · intro h
    obtain ⟨_, hlen, h⟩ := ok_of_bind h
    cases h
    obtain ⟨name, rfl⟩ := List.length_eq_one_iff.mp (expectArity_eq_ok.mp hlen)
    exact ⟨name, rfl, rfl⟩
  · rintro ⟨name, rfl, rfl⟩
    rfl

/-- The commands on a key. -/
theorem keyed_eq_ok {f : String → Command} :
    (do expectArity args 2 command
        let key ← argToOwnedString (argAt args 1) label
        return f key : KvResult Command) = .ok cmd ↔
      ∃ name key, args = [name, asBytes key] ∧ cmd = f key := by
  constructor
  · intro h
    obtain ⟨_, hlen, h⟩ := ok_of_bind h
    obtain ⟨key, hkey, h⟩ := ok_of_bind h
    cases h
    obtain ⟨name, arg, rfl⟩ := List.length_eq_two.mp (expectArity_eq_ok.mp hlen)
    have harg : arg = asBytes key := argToStr_eq_ok.mp hkey
    exact ⟨name, key, by rw [harg], rfl⟩
  · rintro ⟨name, key, rfl, rfl⟩
    have hkey : argToOwnedString (asBytes key) label = .ok key := argToStr_asBytes key label
    change (argToOwnedString (asBytes key) label >>= _) = _
    rw [hkey]
    rfl

/-- The commands on a key, with a number. -/
theorem amounted_eq_ok {f : String → UInt64 → Command} :
    (do expectArity args 3 command
        let key ← argToOwnedString (argAt args 1) label
        let amount ← parseU64Arg (argAt args 2) label'
        return f key amount : KvResult Command) = .ok cmd ↔
      ∃ name key arg amount, args = [name, asBytes key, arg] ∧ Amount arg amount ∧
        cmd = f key amount := by
  constructor
  · intro h
    obtain ⟨_, hlen, h⟩ := ok_of_bind h
    obtain ⟨key, hkey, h⟩ := ok_of_bind h
    obtain ⟨amount, hamount, h⟩ := ok_of_bind h
    cases h
    obtain ⟨name, arg, arg', rfl⟩ := List.length_eq_three.mp (expectArity_eq_ok.mp hlen)
    have harg : arg = asBytes key := argToStr_eq_ok.mp hkey
    exact ⟨name, key, arg', amount, by rw [harg], parseU64Arg_eq_ok.mp hamount, rfl⟩
  · rintro ⟨name, key, arg, amount, rfl, hamount, rfl⟩
    have hkey : argToOwnedString (asBytes key) label = .ok key := argToStr_asBytes key label
    change (argToOwnedString (asBytes key) label >>= fun key =>
      parseU64Arg arg label' >>= fun amount => pure (f key amount)) = _
    rw [hkey]
    change (parseU64Arg arg label' >>= fun amount => pure (f key amount)) = _
    rw [parseU64Arg_eq_ok.mpr hamount]
    rfl

theorem parseKeys_eq_ok :
    parseKeys args = .ok cmd ↔ ∃ name, (args = [name] ∨ args = [name, asBytes "*"]) ∧ cmd = .keys := by
  have hstar : asBytes "*" = [42] := by decide +kernel
  rw [parseKeys, hstar]
  split_ifs with h₁ h₂
  · obtain ⟨name, rfl⟩ := List.length_eq_one_iff.mp h₁
    constructor
    · intro h
      cases h
      exact ⟨name, Or.inl rfl, rfl⟩
    · rintro ⟨_, -, rfl⟩
      rfl
  · obtain ⟨hlen, harg⟩ := h₂
    obtain ⟨name, arg, rfl⟩ := List.length_eq_two.mp hlen
    have harg : arg = [42] := harg
    subst harg
    constructor
    · intro h
      cases h
      exact ⟨name, Or.inr rfl, rfl⟩
    · rintro ⟨_, -, rfl⟩
      rfl
  · apply iff_of_false
    · intro herror
      cases herror
    · rintro ⟨name, rfl | rfl, -⟩
      · exact h₁ rfl
      · exact h₂ ⟨rfl, rfl⟩

theorem parseDel_eq_ok :
    parseDel args = .ok cmd ↔
      ∃ name keys, args = name :: keys.map asBytes ∧ keys ≠ [] ∧ cmd = .del keys := by
  constructor
  · intro h
    rw [parseDel] at h
    split_ifs at h with hlen
    · cases h
    · obtain ⟨keys, hkeys, h⟩ := ok_of_bind h
      cases h
      rcases args with _ | ⟨name, rest⟩
      · exact absurd (by simp) hlen
      · have hall : List.Forall₂ (fun arg key => arg = asBytes key) rest keys :=
          (mapM_eq_ok.mp hkeys).imp fun arg key harg => argToStr_eq_ok.mp harg
        have hrest : rest = keys.map asBytes :=
          List.forall₂_eq_eq_eq ▸ List.forall₂_map_right_iff.mpr hall
        refine ⟨name, keys, by rw [hrest], ?_, rfl⟩
        rintro rfl
        rw [hrest] at hlen
        exact hlen (by simp)
  · rintro ⟨name, _ | ⟨key, keys⟩, rfl, hne, rfl⟩
    · exact absurd rfl hne
    · exact parseDel_asBytes name key keys

theorem parseSet_plain {name value : Bytes} {key : String} :
    parseSet [name, asBytes key, value] = .ok (.set key value none) := by
  have hkey := argToStr_asBytes key "SET key"
  rw [parseSet, if_neg (by simp)]
  change (argToStr (asBytes key) "SET key" >>= _) = _
  rw [hkey]
  rfl

/-- What SET with an option comes to, once its arguments are read. -/
def setWith (key : String) (value : Bytes) (amount : UInt64) (option : String) : KvResult Command :=
  match option with
  | "EX" => return .set key value (some (Duration.fromSecs amount))
  | "PX" => return .set key value (some (Duration.fromMillis amount))
  | "PXAT" => return .setPxAt key value amount
  | _ => invalidCommand ("unsupported SET expire option: " ++ option)

theorem parseSet_option {name value option arg : Bytes} {keyArg : Bytes} :
    parseSet [name, keyArg, value, option, arg] = (do
      let key ← argToOwnedString keyArg "SET key"
      let option ← argToStr option "SET expire option"
      let amount ← parseU64Arg arg "SET expire duration"
      setWith key value amount option.toUpper) := by
  rw [parseSet, if_neg (by simp)]
  rfl

theorem setWith_eq_ok {key option : String} {value : Bytes} {amount : UInt64} :
    setWith key value amount option = .ok cmd ↔
      option = "EX" ∧ cmd = .set key value (some (.fromSecs amount)) ∨
      option = "PX" ∧ cmd = .set key value (some (.fromMillis amount)) ∨
      option = "PXAT" ∧ cmd = .setPxAt key value amount := by
  constructor
  · intro h
    unfold setWith at h
    split at h
    · cases h
      exact Or.inl ⟨rfl, rfl⟩
    · cases h
      exact Or.inr (Or.inl ⟨rfl, rfl⟩)
    · cases h
      exact Or.inr (Or.inr ⟨rfl, rfl⟩)
    · cases h
  · rintro (⟨rfl, rfl⟩ | ⟨rfl, rfl⟩ | ⟨rfl, rfl⟩) <;> rfl

/-- The option of SET: what it stands for. -/
def SetsWith (key : String) (value option : Bytes) (amount : UInt64) (cmd : Command) : Prop :=
  Spells option "EX" ∧ cmd = .set key value (some (.fromSecs amount)) ∨
    Spells option "PX" ∧ cmd = .set key value (some (.fromMillis amount)) ∨
    Spells option "PXAT" ∧ cmd = .setPxAt key value amount

theorem spells_asBytes {text name : String} : Spells (asBytes text) name ↔ text.toUpper = name := by
  constructor
  · rintro ⟨text', htext, hname⟩
    rwa [asBytes_injective htext]
  · intro h
    exact ⟨text, rfl, h⟩

theorem parseSet_eq_ok : parseSet args = .ok cmd ↔
    ∃ name key value, args = [name, asBytes key, value] ∧ cmd = .set key value none ∨
      ∃ option arg amount, args = [name, asBytes key, value, option, arg] ∧ Amount arg amount ∧
        SetsWith key value option amount cmd := by
  constructor
  · intro h
    by_cases hlen : args.length = 3
    · obtain ⟨name, keyArg, value, rfl⟩ := List.length_eq_three.mp hlen
      rw [parseSet, if_neg (by simp)] at h
      obtain ⟨key, hkey, h⟩ := ok_of_bind h
      cases h
      have hkey : keyArg = asBytes key := argToStr_eq_ok.mp hkey
      exact ⟨name, key, value, Or.inl ⟨by rw [hkey], rfl⟩⟩
    · by_cases hlen' : args.length = 5
      · obtain ⟨name, rest, rfl⟩ := List.exists_of_length_succ args hlen'
        obtain ⟨keyArg, rest, rfl⟩ := List.exists_of_length_succ rest (Nat.succ.inj hlen')
        obtain ⟨value, option, arg, rfl⟩ := List.length_eq_three.mp (Nat.add_right_cancel (m := 2) hlen')
        rw [parseSet_option] at h
        obtain ⟨key, hkey, h₁⟩ := ok_of_bind h
        obtain ⟨text, htext, h₂⟩ := ok_of_bind h₁
        obtain ⟨amount, hamount, h₃⟩ := ok_of_bind h₂
        have hkey : keyArg = asBytes key := argToStr_eq_ok.mp hkey
        have htext : option = asBytes text := argToStr_eq_ok.mp htext
        subst hkey htext
        refine ⟨name, key, value, Or.inr ⟨_, arg, amount, rfl, parseU64Arg_eq_ok.mp hamount, ?_⟩⟩
        simp only [SetsWith, spells_asBytes]
        exact setWith_eq_ok.mp h₃
      · rw [parseSet, if_pos ⟨hlen, hlen'⟩] at h
        cases h
  · rintro ⟨name, key, value, ⟨rfl, rfl⟩ | ⟨option, arg, amount, rfl, hamount, hsets⟩⟩
    · exact parseSet_plain
    · have hkey : argToOwnedString (asBytes key) "SET key" = .ok key := argToStr_asBytes key _
      obtain ⟨text, rfl⟩ : ∃ text, option = asBytes text := by
        rcases hsets with ⟨⟨text, h, -⟩, -⟩ | ⟨⟨text, h, -⟩, -⟩ | ⟨⟨text, h, -⟩, -⟩ <;>
          exact ⟨text, h⟩
      simp only [SetsWith, spells_asBytes] at hsets
      rw [parseSet_option, hkey, argToStr_asBytes, parseU64Arg_eq_ok.mpr hamount]
      exact setWith_eq_ok.mpr hsets

end Forms

section Decoder
variable {args : List Bytes} {cmd : Command} {text : String}

/-- The commands other than `unknown`. -/
def Command.Known (cmd : Command) : Prop := ∀ name, cmd ≠ .unknown name

/-- A form begins with the name of its command. -/
theorem Form.exists_name (h : Form args cmd) : ∃ text rest, args = asBytes text :: rest := by
  have hcons {name : Bytes} {rest : List Bytes} {upper : String} (hname : Spells name upper) :
      ∃ text rest', name :: rest = asBytes text :: rest' := by
    obtain ⟨text, rfl, -⟩ := hname
    exact ⟨text, rest, rfl⟩
  cases h <;> exact hcons (by assumption)

/-- What stands in a form is decoded. -/
theorem parseNamed_of_form {rest : List Bytes} (h : Form (asBytes text :: rest) cmd) :
    parseNamed (asBytes text :: rest) text text.toUpper = .ok cmd := by
  cases h with
  | ping hname =>
    rw [spells_asBytes.mp hname]
    exact bare_eq_ok.mpr ⟨_, rfl, rfl⟩
  | set key value hname =>
    rw [spells_asBytes.mp hname]
    exact parseSet_eq_ok.mpr ⟨_, key, value, Or.inl ⟨rfl, rfl⟩⟩
  | setEx key value hname hoption hamount =>
    rw [spells_asBytes.mp hname]
    exact parseSet_eq_ok.mpr ⟨_, key, value,
      Or.inr ⟨_, _, _, rfl, hamount, Or.inl ⟨hoption, rfl⟩⟩⟩
  | setPx key value hname hoption hamount =>
    rw [spells_asBytes.mp hname]
    exact parseSet_eq_ok.mpr ⟨_, key, value,
      Or.inr ⟨_, _, _, rfl, hamount, Or.inr (Or.inl ⟨hoption, rfl⟩)⟩⟩
  | setPxAt key value hname hoption hamount =>
    rw [spells_asBytes.mp hname]
    exact parseSet_eq_ok.mpr ⟨_, key, value,
      Or.inr ⟨_, _, _, rfl, hamount, Or.inr (Or.inr ⟨hoption, rfl⟩)⟩⟩
  | get key hname =>
    rw [spells_asBytes.mp hname]
    exact keyed_eq_ok.mpr ⟨_, key, rfl, rfl⟩
  | del keys hname hne =>
    rw [spells_asBytes.mp hname]
    exact parseDel_eq_ok.mpr ⟨_, keys, rfl, hne, rfl⟩
  | exists' key hname =>
    rw [spells_asBytes.mp hname]
    exact keyed_eq_ok.mpr ⟨_, key, rfl, rfl⟩
  | keys hname =>
    rw [spells_asBytes.mp hname]
    exact parseKeys_eq_ok.mpr ⟨_, Or.inl rfl, rfl⟩
  | keysAll hname =>
    rw [spells_asBytes.mp hname]
    exact parseKeys_eq_ok.mpr ⟨_, Or.inr rfl, rfl⟩
  | expire key hname hamount =>
    rw [spells_asBytes.mp hname]
    exact amounted_eq_ok.mpr ⟨_, key, _, _, rfl, hamount, rfl⟩
  | expireAt key hname hamount =>
    rw [spells_asBytes.mp hname]
    exact amounted_eq_ok.mpr ⟨_, key, _, _, rfl, hamount, rfl⟩
  | ttl key hname =>
    rw [spells_asBytes.mp hname]
    exact keyed_eq_ok.mpr ⟨_, key, rfl, rfl⟩
  | flushDb hname =>
    rw [spells_asBytes.mp hname]
    exact bare_eq_ok.mpr ⟨_, rfl, rfl⟩
  | info hname =>
    rw [spells_asBytes.mp hname]
    exact bare_eq_ok.mpr ⟨_, rfl, rfl⟩

/-- What is decoded stands in a form, or its name is none of a command. -/
theorem form_of_parseNamed (hargs : args.head? = some (asBytes text))
    (h : parseNamed args text text.toUpper = .ok cmd) :
    Form args cmd ∨ text.toUpper ∉ commandNames ∧ cmd = .unknown text := by
  have hname {name : Bytes} {rest : List Bytes} {upper : String} (hcons : args = name :: rest)
      (hupper : text.toUpper = upper) : Spells name upper := by
    rw [hcons, List.head?_cons, Option.some.injEq] at hargs
    exact ⟨text, hargs, hupper⟩
  unfold parseNamed at h
  split at h
  case h_1 hupper =>
    obtain ⟨_, rfl, rfl⟩ := bare_eq_ok.mp h
    exact Or.inl (.ping (hname rfl hupper))
  case h_2 hupper =>
    obtain ⟨_, key, value, ⟨rfl, rfl⟩ | ⟨option, arg, amount, rfl, hamount, hsets⟩⟩ :=
      parseSet_eq_ok.mp h
    · exact Or.inl (.set key value (hname rfl hupper))
    · rcases hsets with ⟨hoption, rfl⟩ | ⟨hoption, rfl⟩ | ⟨hoption, rfl⟩
      · exact Or.inl (.setEx key value (hname rfl hupper) hoption hamount)
      · exact Or.inl (.setPx key value (hname rfl hupper) hoption hamount)
      · exact Or.inl (.setPxAt key value (hname rfl hupper) hoption hamount)
  case h_3 hupper =>
    obtain ⟨_, key, rfl, rfl⟩ := keyed_eq_ok.mp h
    exact Or.inl (.get key (hname rfl hupper))
  case h_4 hupper =>
    obtain ⟨_, keys, rfl, hne, rfl⟩ := parseDel_eq_ok.mp h
    exact Or.inl (.del keys (hname rfl hupper) hne)
  case h_5 hupper =>
    obtain ⟨_, key, rfl, rfl⟩ := keyed_eq_ok.mp h
    exact Or.inl (.exists' key (hname rfl hupper))
  case h_6 hupper =>
    obtain ⟨_, rfl | rfl, rfl⟩ := parseKeys_eq_ok.mp h
    · exact Or.inl (.keys (hname rfl hupper))
    · exact Or.inl (.keysAll (hname rfl hupper))
  case h_7 hupper =>
    obtain ⟨_, key, _, amount, rfl, hamount, rfl⟩ := amounted_eq_ok.mp h
    exact Or.inl (.expire key (hname rfl hupper) hamount)
  case h_8 hupper =>
    obtain ⟨_, key, _, amount, rfl, hamount, rfl⟩ := amounted_eq_ok.mp h
    exact Or.inl (.expireAt key (hname rfl hupper) hamount)
  case h_9 hupper =>
    obtain ⟨_, key, rfl, rfl⟩ := keyed_eq_ok.mp h
    exact Or.inl (.ttl key (hname rfl hupper))
  case h_10 hupper =>
    obtain ⟨_, rfl, rfl⟩ := bare_eq_ok.mp h
    exact Or.inl (.flushDb (hname rfl hupper))
  case h_11 hupper =>
    obtain ⟨_, rfl, rfl⟩ := bare_eq_ok.mp h
    exact Or.inl (.info (hname rfl hupper))
  case h_12 =>
    cases h
    refine Or.inr ⟨?_, rfl⟩
    simp only [commandNames, List.mem_cons, List.not_mem_nil, or_false, not_or]
    exact ⟨by assumption, by assumption, by assumption, by assumption, by assumption,
      by assumption, by assumption, by assumption, by assumption, by assumption, by assumption⟩

theorem parseNamed_unknown (h : text.toUpper ∉ commandNames) :
    parseNamed args text text.toUpper = .ok (.unknown text) := by
  simp only [commandNames, List.mem_cons, List.not_mem_nil, or_false, not_or] at h
  obtain ⟨h₁, h₂, h₃, h₄, h₅, h₆, h₇, h₈, h₉, h₁₀, h₁₁⟩ := h
  unfold parseNamed
  split
  all_goals first | contradiction | rfl

theorem fromResp_eq_ok {resp : RespFrame} : Command.fromResp resp = .ok cmd ↔
    ∃ args text, Arguments resp args ∧ args.head? = some (asBytes text) ∧
      parseNamed args text text.toUpper = .ok cmd := by
  constructor
  · intro h
    obtain ⟨args, hargs, h⟩ := ok_of_bind h
    split_ifs at h with hempty
    · cases h
    · obtain ⟨text, htext, h⟩ := ok_of_bind h
      refine ⟨args, text, respToArgs_eq_ok.mp hargs, ?_, h⟩
      obtain ⟨name, rest, rfl⟩ : ∃ name rest, args = name :: rest := by
        cases args with
        | nil => exact absurd rfl hempty
        | cons name rest => exact ⟨name, rest, rfl⟩
      exact congrArg some (argToStr_eq_ok.mp htext)
  · rintro ⟨_ | ⟨name, rest⟩, text, hargs, hhead, h⟩
    · cases hhead
    · cases hhead
      rw [Command.fromResp, respToArgs_eq_ok.mpr hargs]
      change (argToStr (asBytes text) "command" >>= _) = _
      rw [argToStr_asBytes]
      exact h

theorem fromResp_of_form (h : Form args cmd) :
    Command.fromResp (.array (args.map .bulkString)) = .ok cmd := by
  obtain ⟨text, rest, rfl⟩ := h.exists_name
  exact fromResp_eq_ok.mpr
    ⟨_, text, respToArgs_eq_ok.mp (respToArgs_bulk _), rfl, parseNamed_of_form h⟩

end Decoder

section Refusals
variable {α β : Type}

/-- An error of the result is `InvalidCommand`. -/
def Refuses (p : KvResult α) : Prop :=
  ∀ error, p = .error error → ∃ message, error = .invalidCommand message

theorem refuses_ok (a : α) : Refuses (.ok a) := nofun

theorem refuses_pure (a : α) : Refuses (pure a : KvResult α) := nofun

theorem refuses_invalid (message : String) : Refuses (invalidCommand message : KvResult α) := by
  intro error h
  cases h
  exact ⟨message, rfl⟩

theorem refuses_bind {p : KvResult α} {f : α → KvResult β} (hp : Refuses p)
    (hf : ∀ a, Refuses (f a)) : Refuses (p >>= f) := by
  intro error h
  cases p with
  | error error' =>
    cases h
    exact hp _ rfl
  | ok a => exact hf a error h

theorem refuses_mapM {f : α → KvResult β} (hf : ∀ a, Refuses (f a)) (as : List α) :
    Refuses (as.mapM f) := by
  induction as with
  | nil => exact refuses_pure []
  | cons a as ih =>
    rw [List.mapM_cons]
    apply refuses_bind (hf a)
    intro b
    apply refuses_bind ih
    intro bs
    exact refuses_pure _

theorem refuses_expectArity (args : List Bytes) (expected : ℕ) (command : String) :
    Refuses (expectArity args expected command) := by
  unfold expectArity
  split_ifs
  · exact refuses_ok ()
  · exact refuses_invalid _

theorem refuses_argToStr (arg : Bytes) (label : String) : Refuses (argToStr arg label) := by
  unfold argToStr
  split
  · exact refuses_invalid _
  · exact refuses_ok _

theorem refuses_parseU64Arg (arg : Bytes) (label : String) : Refuses (parseU64Arg arg label) := by
  apply refuses_bind (refuses_argToStr arg label)
  intro text
  split
  · exact refuses_invalid _
  · exact refuses_pure _

theorem refuses_inlineLineToArgs (line : String) : Refuses (inlineLineToArgs line) := by
  simp only [inlineLineToArgs]
  split_ifs
  · exact refuses_invalid _
  · exact refuses_ok _

theorem refuses_respToArgs (resp : RespFrame) : Refuses (respToArgs resp) := by
  cases resp with
  | array values =>
    apply refuses_mapM
    intro value
    cases value with
    | simpleString text => exact refuses_ok _
    | bulkString bytes => exact refuses_ok _
    | _ => exact refuses_invalid _
  | simpleString line => exact refuses_inlineLineToArgs line
  | bulkString bytes =>
    cases htext : fromUtf8 bytes with
    | none =>
      rw [respToArgs, htext]
      exact refuses_invalid _
    | some line =>
      rw [respToArgs, htext]
      exact refuses_inlineLineToArgs line
  | _ => exact refuses_invalid _

theorem refuses_keyed {expected : ℕ} {args : List Bytes} {command label : String}
    {f : String → KvResult Command} (hf : ∀ key, Refuses (f key)) :
    Refuses (do expectArity args expected command
                let key ← argToOwnedString (argAt args 1) label
                f key : KvResult Command) := by
  apply refuses_bind (refuses_expectArity _ _ _)
  intro _
  exact refuses_bind (refuses_argToStr _ _) hf

theorem refuses_parseSet (args : List Bytes) : Refuses (parseSet args) := by
  unfold parseSet
  split_ifs with hlen hfive
  · exact refuses_invalid _
  · apply refuses_bind (refuses_argToStr _ _)
    intro key
    apply refuses_bind (refuses_argToStr _ _)
    intro option
    apply refuses_bind (refuses_parseU64Arg _ _)
    intro amount
    split
    · exact refuses_pure _
    · exact refuses_pure _
    · exact refuses_pure _
    · exact refuses_invalid _
  · apply refuses_bind (refuses_argToStr _ _)
    intro key
    exact refuses_pure _

theorem refuses_parseNamed (args : List Bytes) (name normalized : String) :
    Refuses (parseNamed args name normalized) := by
  have hbare (command : String) (cmd : Command) :
      Refuses (do expectArity args 1 command; return cmd : KvResult Command) :=
    refuses_bind (refuses_expectArity _ _ _) fun _ => refuses_pure _
  have hamount (label : String) (f : UInt64 → Command) :
      Refuses (do let amount ← parseU64Arg (argAt args 2) label; return f amount) :=
    refuses_bind (refuses_parseU64Arg _ _) fun _ => refuses_pure _
  unfold parseNamed
  split
  · exact hbare _ _
  · exact refuses_parseSet args
  · exact refuses_keyed fun _ => refuses_pure _
  · unfold parseDel
    split_ifs
    · exact refuses_invalid _
    · exact refuses_bind (refuses_mapM (fun _ => refuses_argToStr _ _) _) fun _ => refuses_pure _
  · exact refuses_keyed fun _ => refuses_pure _
  · unfold parseKeys
    split_ifs
    · exact refuses_ok _
    · exact refuses_ok _
    · exact refuses_invalid _
  · exact refuses_keyed fun _ => hamount _ _
  · exact refuses_keyed fun _ => hamount _ _
  · exact refuses_keyed fun _ => refuses_pure _
  · exact hbare _ _
  · exact hbare _ _
  · exact refuses_ok _

theorem refuses_fromResp (resp : RespFrame) : Refuses (Command.fromResp resp) := by
  apply refuses_bind (refuses_respToArgs resp)
  intro args
  split_ifs
  · exact refuses_invalid _
  · apply refuses_bind (refuses_argToStr _ _)
    intro name
    exact refuses_parseNamed _ _ _

end Refusals

section Language

/-- An array of strings is decoded like any other frame with the same arguments. -/
theorem fromResp_inline {resp : RespFrame} {args : List Bytes} (h : Arguments resp args) :
    Command.fromResp resp = Command.fromResp (.array (args.map .bulkString)) := by
  have harray : Arguments (.array (args.map .bulkString)) args :=
    respToArgs_eq_ok.mp (respToArgs_bulk args)
  rw [Command.fromResp, Command.fromResp, respToArgs_eq_ok.mpr h, respToArgs_eq_ok.mpr harray]

/-- Words behind each other, with a gap between each two. -/
theorem words_intercalate {gap : String} {words : List String} (hne : gap ≠ "")
    (hgap : ∀ b ∈ asBytes gap, isAsciiWhitespace b = true)
    (hwords : ∀ word ∈ words, word ≠ "" ∧ ∀ b ∈ asBytes word, isAsciiWhitespace b = false) :
    Words isAsciiWhitespace (asBytes (gap.intercalate words)) (words.map asBytes) := by
  have hbytes {word : String} (h : word ≠ "") : asBytes word ≠ [] := by
    intro hnil
    exact h (asBytes_injective (hnil.trans rfl))
  induction words with
  | nil => exact .nil nofun
  | cons word words ih =>
    obtain ⟨⟨hword, hall⟩, hrest⟩ := List.forall_mem_cons.mp hwords
    have hnil : ∀ b ∈ ([] : Bytes), isAsciiWhitespace b = true := nofun
    by_cases hlast : words = []
    · subst hlast
      have hcons := @Words.cons _ _ _ _ [] _ hnil (hbytes hword) hall nofun (.nil nofun)
      rw [List.append_nil, List.nil_append] at hcons
      rw [String.intercalate_singleton]
      exact hcons
    · -- a gap in front of words does not count
      have hskip : Words isAsciiWhitespace (asBytes (gap ++ gap.intercalate words))
          (words.map asBytes) := by
        rw [words_iff, asBytes_append, pieces_gap hgap]
        exact (ih hrest).pieces_eq
      have hhead : ∀ b ∈ (asBytes (gap ++ gap.intercalate words)).head?,
          isAsciiWhitespace b = true := by
        intro b hb
        rw [asBytes_append, List.head?_append_of_ne_nil _ (hbytes hne)] at hb
        exact hgap b (List.mem_of_mem_head? hb)
      have hcons := Words.cons hnil (hbytes hword) hall hhead hskip
      rw [String.intercalate_cons_of_ne_nil hlast, String.append_assoc, asBytes_append]
      exact hcons

/-- The decoder accepts exactly the forms; a name of no command is unknown, and everything else
is an invalid command. So an inline line is decoded like the array of its words. -/
theorem fromResp_language :
    (∀ resp, (∀ cmd : Command, cmd.Known → (Command.fromResp resp = .ok cmd ↔
        ∃ args, Arguments resp args ∧ Form args cmd)) ∧
      (∀ name, Command.fromResp resp = .ok (.unknown name) ↔
        ∃ rest, Arguments resp (asBytes name :: rest) ∧ name.toUpper ∉ commandNames) ∧
      ∀ error, Command.fromResp resp = .error error →
        ∃ message, error = .invalidCommand message) ∧
    (∀ (line : String) (words : List String), words ≠ [] →
      Words isAsciiWhitespace (asBytes line) (words.map asBytes) →
      Command.fromResp (.simpleString line) =
        Command.fromResp (.array ((words.map asBytes).map .bulkString)) ∧
      Command.fromResp (.bulkString (asBytes line)) =
        Command.fromResp (.array ((words.map asBytes).map .bulkString))) ∧
    ∀ (gap : String) (words : List String), gap ≠ "" →
      (∀ b ∈ asBytes gap, isAsciiWhitespace b = true) →
      (∀ word ∈ words, word ≠ "" ∧ ∀ b ∈ asBytes word, isAsciiWhitespace b = false) →
      Words isAsciiWhitespace (asBytes (gap.intercalate words)) (words.map asBytes) := by
  refine ⟨fun resp => ⟨fun cmd hknown => ?_, fun name => ?_, refuses_fromResp resp⟩, ?_,
    fun gap words => words_intercalate⟩
  · constructor
    · intro h
      obtain ⟨args, text, hargs, hhead, h⟩ := fromResp_eq_ok.mp h
      rcases form_of_parseNamed hhead h with hform | ⟨-, hunknown⟩
      · exact ⟨args, hargs, hform⟩
      · exact absurd hunknown (hknown text)
    · rintro ⟨args, hargs, hform⟩
      obtain ⟨text, rest, rfl⟩ := hform.exists_name
      exact fromResp_eq_ok.mpr ⟨_, text, hargs, rfl, parseNamed_of_form hform⟩
  · constructor
    · intro h
      obtain ⟨args, text, hargs, hhead, h⟩ := fromResp_eq_ok.mp h
      rcases form_of_parseNamed hhead h with hform | ⟨hname, hunknown⟩
      · cases hform
      · cases hunknown
        obtain ⟨rest, rfl⟩ : ∃ rest, args = asBytes name :: rest := by
          cases args with
          | nil => cases hhead
          | cons arg rest =>
            cases hhead
            exact ⟨rest, rfl⟩
        exact ⟨rest, hargs, hname⟩
    · rintro ⟨rest, hargs, hname⟩
      exact fromResp_eq_ok.mpr ⟨_, name, hargs, rfl, parseNamed_unknown hname⟩
  · intro line words hne hwords
    have hnil : words.map asBytes ≠ [] := by simpa using hne
    exact ⟨fromResp_inline (.simpleString hwords hnil), fromResp_inline (.bulkString hwords hnil)⟩

end Language

end RustKV

import RustKV.Aof
import RustKV.RespRoundTrip

/-! `Connection::read_value`. The bytes of a client arrive in reads of any size; each call
hands on the frame at the front of the buffer and reads until there is one. What is handed on
is what was sent. A read that leaves more than a frame's worth in the buffer is refused, though
the frames in it may be small. -/
namespace RustKV
open Decimal

/-- `stream` is what the socket delivers: the bytes of each read to come, then its end. -/
structure Connection where
  stream : List Bytes
  buffer : Bytes
  maxFrameSize : ℕ
  deriving DecidableEq

namespace Connection

def new (stream : List Bytes) (maxFrameSize : ℕ) : Connection := ⟨stream, [], maxFrameSize⟩

def frameTooLarge : IoError :=
  ⟨.invalidData, "request exceeds maximum frame size: frame too large"⟩

def invalidFrame (error : ProtocolError) : IoError :=
  ⟨.invalidData, "invalid RESP frame: " ++ error.toText⟩

def closedEarly : IoError :=
  ⟨.unexpectedEof, "connection closed with an incomplete RESP frame"⟩

/-- The loop of `read_value`, a round for each read. `none` is a panic: of the parser, or of
the buffer, which cannot grow beyond `isize::MAX` bytes. -/
def readLoop (maxFrameSize : ℕ) (stream : List Bytes) (buffer : Bytes) :
    Option (IoResult (Option Bytes)) × Connection :=
  match parseRespOrPanic frameSize buffer with
  | none => (none, ⟨stream, buffer, maxFrameSize⟩)
  | some (.ok (_, consumed)) =>
    if consumed > maxFrameSize then
      (some (.error frameTooLarge), ⟨stream, buffer, maxFrameSize⟩)
    else
      (some (.ok (some (buffer.take consumed))), ⟨stream, buffer.drop consumed, maxFrameSize⟩)
  | some (.error error) =>
    if error ≠ .incomplete then
      (some (.error (invalidFrame error)), ⟨stream, buffer, maxFrameSize⟩)
    else if buffer.length > maxFrameSize then
      (some (.error frameTooLarge), ⟨stream, buffer, maxFrameSize⟩)
    else
      match stream with
      | [] | [] :: _ =>
        if buffer.isEmpty then (some (.ok none), ⟨stream.tail, buffer, maxFrameSize⟩)
        else (some (.error closedEarly), ⟨stream.tail, buffer, maxFrameSize⟩)
      | (byte :: bytes) :: stream =>
        let grown := buffer ++ byte :: bytes
        if grown.length > isizeMax then
          (none, ⟨(byte :: bytes) :: stream, buffer, maxFrameSize⟩)
        else if grown.length > maxFrameSize then
          (some (.error frameTooLarge), ⟨stream, grown, maxFrameSize⟩)
        else
          readLoop maxFrameSize stream grown

def readValue (conn : Connection) : Option (IoResult (Option Bytes)) × Connection :=
  readLoop conn.maxFrameSize conn.stream conn.buffer

/-- Successive calls return these frames and then `Ok(None)`. -/
def Delivers : List Bytes → Connection → Prop
  | [], conn => conn.readValue.1 = some (.ok none)
  | frame :: frames, conn =>
    conn.readValue.1 = some (.ok (some frame)) ∧ Delivers frames conn.readValue.2

/-- At most `k` calls, up to the first that returns no frame: the frames returned, and the
connection after the last call. -/
def calls : ℕ → Connection → List Bytes × Connection
  | 0, conn => ([], conn)
  | k+1, conn =>
    match conn.readValue with
    | (some (.ok (some frame)), conn') =>
      match calls k conn' with
      | (frames, conn'') => (frame :: frames, conn'')
    | (_, conn') => ([], conn')

section Rounds
variable {m : ℕ} {stream : List Bytes} {buffer : Bytes}

/-- A complete frame in the buffer is returned. -/
theorem readLoop_frame {f : RespFrame} {w rest : Bytes} (hd : Derives f w)
    (hf : ArraysFit frameSize f) (hm : w.length ≤ m) (hl : (w ++ rest).length ≤ isizeMax) :
    readLoop m stream (w ++ rest) = (some (.ok (some w)), ⟨stream, rest, m⟩) := by
  rw [readLoop.eq_def, parseRespOrPanic_of_fits hd hf hl]
  simp [not_lt.mpr hm]

/-- An incomplete frame makes the loop read. -/
theorem readLoop_incomplete (hp : parseRespOrPanic frameSize buffer = some (.error .incomplete))
    (hm : buffer.length ≤ m) {seg : Bytes} (hs : seg ≠ []) :
    readLoop m (seg :: stream) buffer =
      if (buffer ++ seg).length > isizeMax then (none, ⟨seg :: stream, buffer, m⟩)
      else if (buffer ++ seg).length > m then
        (some (.error frameTooLarge), ⟨stream, buffer ++ seg, m⟩)
      else readLoop m stream (buffer ++ seg) := by
  obtain ⟨byte, bytes, rfl⟩ := List.exists_cons_of_ne_nil hs
  rw [readLoop, hp]
  simp [not_lt.mpr hm]

theorem parseRespOrPanic_nil : parseRespOrPanic frameSize [] = some (.error .incomplete) := by
  have hd : Derives .null (encodeResp .null) := derives_encodeResp .null .null (by decide +kernel)
  exact parseRespOrPanic_prefix hd (by decide +kernel) (by decide +kernel) List.nil_prefix
    (by simp)

theorem readLoop_end : readLoop m [] [] = (some (.ok none), ⟨[], [], m⟩) := by
  rw [readLoop.eq_def, parseRespOrPanic_nil]
  simp

end Rounds

section Delivery
variable {m : ℕ}

/-- A frame that a client may send: it has at most `m` bytes, and it and its arrays fit in
memory. -/
structure Sent (m : ℕ) (f : RespFrame) (w : Bytes) : Prop where
  derives : Derives f w
  small : w.length ≤ m
  slice : w.length ≤ isizeMax
  fits : ArraysFit frameSize f

/-- The length of those frames that are complete in the first `k` bytes. -/
def completeLength : List Bytes → ℕ → ℕ
  | [], _ => 0
  | w :: ws, k => if w.length ≤ k then w.length + completeLength ws (k - w.length) else 0

/-- After `k` bytes no read leaves more in the buffer than a frame may have: what is left there
are the bytes behind the frames that were complete before the read. -/
def Roomy (m : ℕ) (frames : List Bytes) (k : ℕ) (stream : List Bytes) : Prop :=
  ∀ before seg after, stream = before ++ seg :: after →
    k + before.flatten.length + seg.length ≤
      completeLength frames (k + before.flatten.length) + min m isizeMax

theorem roomy_nil (frames : List Bytes) (k : ℕ) : Roomy m frames k [] := by
  intro before seg after h
  simp at h

theorem roomy_cons {frames : List Bytes} {k : ℕ} {seg : Bytes} {stream : List Bytes} :
    Roomy m frames k (seg :: stream) ↔
      k + seg.length ≤ completeLength frames k + min m isizeMax ∧
        Roomy m frames (k + seg.length) stream := by
  constructor
  · intro h
    refine ⟨by simpa using h [] seg stream rfl, fun before seg' after hs => ?_⟩
    have := h (seg :: before) seg' after (by rw [hs]; rfl)
    rwa [List.flatten_cons, List.length_append, ← Nat.add_assoc] at this
  · rintro ⟨hseg, hrest⟩ before seg' after hs
    cases before with
    | nil =>
      cases hs
      simpa using hseg
    | cons b before =>
      cases hs
      have := hrest before seg' after rfl
      rwa [List.flatten_cons, List.length_append, ← Nat.add_assoc]

/-- A complete frame plays no part in what follows. -/
theorem roomy_frame {w : Bytes} {frames : List Bytes} {k : ℕ} {stream : List Bytes} :
    Roomy m (w :: frames) (w.length + k) stream ↔ Roomy m frames k stream := by
  refine forall_congr' fun before => forall_congr' fun seg => forall_congr' fun after =>
    imp_congr_right fun _ => ?_
  rw [completeLength, if_pos (by omega), show w.length + k + before.flatten.length - w.length =
    k + before.flatten.length by omega]
  omega

/-- From any state of the loop: the remaining frames are delivered exactly when there is room. -/
theorem delivers_iff {values : List RespFrame} {frames : List Bytes} {stream : List Bytes}
    {buffer : Bytes} (hv : List.Forall₂ (Sent m) values frames) (hs : ∀ seg ∈ stream, seg ≠ [])
    (hb : buffer.length ≤ min m isizeMax) (hcut : buffer ++ stream.flatten = frames.flatten) :
    Delivers frames ⟨stream, buffer, m⟩ ↔ Roomy m frames buffer.length stream := by
  -- each round either delivers a frame or takes in a read
  induction hn : frames.length + stream.length using Nat.strong_induction_on
    generalizing values frames stream buffer with
  | _ n ih =>
    subst hn
    cases hv with
    | nil =>
      obtain ⟨rfl, hflat⟩ := List.append_eq_nil_iff.mp hcut
      have hstream : stream = [] := by
        cases stream with
        | nil => rfl
        | cons seg stream =>
          exact absurd (List.append_eq_nil_iff.mp hflat).1 (hs seg List.mem_cons_self)
      subst hstream
      rw [Delivers, readValue, readLoop_end]
      exact iff_of_true rfl (roomy_nil _ _)
    | @cons f w values frames hw hv =>
      rw [List.flatten_cons] at hcut
      by_cases hle : w.length ≤ buffer.length
      · -- the frame is in the buffer
        obtain ⟨rest, rfl⟩ : ∃ rest, buffer = w ++ rest := by
          obtain ⟨rest, hrest⟩ := List.prefix_of_prefix_length_le
            (List.prefix_append w frames.flatten) (hcut ▸ List.prefix_append buffer _) hle
          exact ⟨rest, hrest.symm⟩
        have hread : (⟨stream, w ++ rest, m⟩ : Connection).readValue =
            (some (.ok (some w)), ⟨stream, rest, m⟩) :=
          readLoop_frame hw.derives hw.fits hw.small (hb.trans (min_le_right _ _))
        rw [List.length_append] at hb ⊢
        rw [List.append_assoc] at hcut
        rw [Delivers, hread, roomy_frame]
        simp only [true_and]
        exact ih _ (by simp only [List.length_cons]; omega) hv hs (by omega)
          (List.append_cancel_left hcut) rfl
      · -- the buffer holds a proper prefix of the frame
        have hpre : buffer <+: w := List.prefix_of_prefix_length_le
          (hcut ▸ List.prefix_append buffer stream.flatten) (List.prefix_append w _) (by omega)
        have hparse := parseRespOrPanic_prefix_of_fits hw.derives hw.fits hw.slice hpre (by
          rintro rfl
          exact hle le_rfl)
        cases stream with
        | nil =>
          have hlen := congrArg List.length hcut
          simp only [List.flatten_nil, List.append_nil, List.length_append] at hlen
          omega
        | cons seg stream =>
          obtain ⟨hseg, hs⟩ := List.forall_mem_cons.mp hs
          have hread : (⟨seg :: stream, buffer, m⟩ : Connection).readValue = _ :=
            readLoop_incomplete hparse (hb.trans (min_le_left _ _)) hseg
          have hzero : completeLength (w :: frames) buffer.length = 0 := if_neg hle
          rw [roomy_cons, hzero, ← List.length_append]
          -- the length of the whole buffer is what is compared with the limit
          by_cases hroom : (buffer ++ seg).length ≤ 0 + min m isizeMax
          · have hmin := le_min_iff.mp ((Nat.zero_add _) ▸ hroom)
            rw [if_neg (not_lt.mpr hmin.2), if_neg (not_lt.mpr hmin.1)] at hread
            have hsame : Delivers (w :: frames) ⟨seg :: stream, buffer, m⟩ ↔
                Delivers (w :: frames) ⟨stream, buffer ++ seg, m⟩ := by
              rw [Delivers, hread]
              exact Iff.rfl
            have hcut : (buffer ++ seg) ++ stream.flatten = (w :: frames).flatten := by
              rw [List.append_assoc]
              exact hcut
            have hnext := ih _ (by simp only [List.length_cons]; omega) (.cons hw hv) hs
              (by omega) hcut rfl
            rw [hsame, hnext]
            exact ⟨fun h => ⟨hroom, h⟩, fun h => h.2⟩
          · refine iff_of_false ?_ fun h => hroom h.1
            rw [Delivers, hread]
            split_ifs <;> simp
            omega

/-- Frames of at most `m` bytes, cut into reads in any way, are delivered one by one and then
the end of the stream, exactly when no read leaves more in the buffer than one frame may have. -/
theorem delivers_new_iff {values : List RespFrame} {frames segments : List Bytes}
    (hv : List.Forall₂ (Sent m) values frames) (hs : ∀ seg ∈ segments, seg ≠ [])
    (hcut : segments.flatten = frames.flatten) :
    Delivers frames (new segments m) ↔ Roomy m frames 0 segments :=
  delivers_iff hv hs (Nat.zero_le _) hcut

def ping : Bytes := asBytes "*1\r\n$4\r\nPING\r\n"

theorem sent_ping : Sent 14 (.array [.bulkString (asBytes "PING")]) ping := by
  have hlen : ping.length = 14 := by decide +kernel
  have hd : Derives (.array [.bulkString (asBytes "PING")]) ping := by
    have hword : ping = encodeResp (.array [.bulkString (asBytes "PING")]) := by decide +kernel
    rw [hword]
    refine derives_encodeResp _ (.array _ ?_) (by decide +kernel)
    simpa using LineSafe.bulkString (asBytes "PING")
  exact ⟨hd, hlen.le, by rw [hlen]; decide, arraysFit_of_length hd (by rw [hlen]; decide)⟩

theorem delivers_new_iff_ping :
    Delivers [ping, ping] (new [ping ++ ping] 14) ↔ Roomy 14 [ping, ping] 0 [ping ++ ping] :=
  delivers_new_iff (.cons sent_ping (.cons sent_ping .nil)) (by simp [ping]; decide +kernel)
    (by simp)

/-- Two requests of 14 bytes in one read are refused where a frame may have 14 bytes. -/
theorem not_delivers_pings : ¬ ∀ (m : ℕ) (values : List RespFrame) (frames segments : List Bytes),
    List.Forall₂ (Sent m) values frames → (∀ seg ∈ segments, seg ≠ []) →
    segments.flatten = frames.flatten → Delivers frames (new segments m) := by
  intro hall
  have h := hall 14 _ [ping, ping] [ping ++ ping] (.cons sent_ping (.cons sent_ping .nil))
    (by simp [ping]; decide +kernel) (by simp)
  exact absurd h.1 (by decide +kernel)

end Delivery

section Soundness

/-- The frames of a stream: nothing that is left behind them begins with a frame. -/
def IsSplit (x : Bytes) (words : List Bytes) : Prop :=
  (∃ values, List.Forall₂ Derives values words) ∧
    ∃ rest, x = words.flatten ++ rest ∧ ∀ f w, Derives f w → ¬ w <+: rest

theorem exists_isSplit (x : Bytes) : ∃ words, IsSplit x words := by
  induction hn : x.length using Nat.strong_induction_on generalizing x with
  | _ n ih =>
    subst hn
    by_cases h : ∃ f w, Derives f w ∧ w <+: x
    · obtain ⟨f, w, hd, rest, rfl⟩ := h
      have hpos := hd.three_le
      obtain ⟨words, ⟨values, hv⟩, tail, rfl, htail⟩ := ih rest.length
        (by rw [List.length_append]; omega) rest rfl
      exact ⟨w :: words, ⟨f :: values, .cons hd hv⟩, tail, by simp, htail⟩
    · exact ⟨[], ⟨[], .nil⟩, x, rfl, fun f w hd hw => h ⟨f, w, hd, hw⟩⟩

/-- Frames at the front of a stream are the first ones of its split. -/
theorem prefix_of_isSplit {values : List RespFrame} {frames words : List Bytes} {r : Bytes}
    (hv : List.Forall₂ Derives values frames) (h : IsSplit (frames.flatten ++ r) words) :
    frames <+: words := by
  induction hv generalizing words with
  | nil => exact List.nil_prefix
  | @cons f w values frames hd hv ih =>
    obtain ⟨⟨values', hv'⟩, rest, hx, hrest⟩ := h
    cases hv' with
    | nil =>
      rw [List.flatten_nil, List.nil_append, List.flatten_cons, List.append_assoc] at hx
      exact absurd (hx ▸ List.prefix_append ..) (hrest f w hd)
    | cons hd' hv' =>
      simp only [List.flatten_cons, List.append_assoc] at hx
      obtain ⟨rfl, rfl⟩ := hd.unique hd' hx
      exact List.cons_prefix_cons.mpr ⟨rfl, ih ⟨⟨_, hv'⟩, rest, List.append_cancel_left hx, hrest⟩⟩

theorem existsUnique_isSplit (x : Bytes) : ∃! words, IsSplit x words := by
  obtain ⟨words, h⟩ := exists_isSplit x
  refine ⟨words, h, fun words' h' => ?_⟩
  have hpre {us vs : List Bytes} (hu : IsSplit x us) (hv : IsSplit x vs) : us <+: vs := by
    obtain ⟨⟨values, hvalues⟩, rest, rfl, -⟩ := hu
    exact prefix_of_isSplit hvalues hv
  exact (hpre h' h).eq_of_length_le (hpre h h').length_le

/-- What one call does with the bytes: it hands on a frame from their front, or keeps them. -/
def Handled (m : ℕ) (bytes : Bytes) (outcome : Option (IoResult (Option Bytes)))
    (buffer : Bytes) : Prop :=
  match outcome with
  | some (.ok (some w)) => bytes = w ++ buffer ∧ w.length ≤ m ∧
      ∃ f, Derives f w ∧ parseRespOrPanic frameSize w = some (.ok (f, w.length))
  | some (.ok none) => bytes = [] ∧ buffer = []
  | _ => bytes = buffer

theorem readLoop_of_ne_incomplete {m : ℕ} {stream : List Bytes} {buffer : Bytes}
    (hb : buffer.length ≤ isizeMax)
    (hp : parseRespOrPanic frameSize buffer ≠ some (.error .incomplete)) :
    ∃ buffer', (readLoop m stream buffer).2 = ⟨stream, buffer', m⟩ ∧ buffer'.length ≤ isizeMax ∧
      Handled m buffer (readLoop m stream buffer).1 buffer' := by
  rw [readLoop.eq_def]
  rcases hparse : parseRespOrPanic frameSize buffer with _ | error | ⟨f, consumed⟩
  · exact ⟨buffer, rfl, hb, rfl⟩
  · have herror : error ≠ .incomplete := by
      rintro rfl
      exact hp hparse
    simp only [herror, ne_eq, not_false_eq_true, if_true]
    exact ⟨buffer, rfl, hb, rfl⟩
  · dsimp only
    split_ifs with hm
    · exact ⟨buffer, rfl, hb, rfl⟩
    · have hsafe := parseRespOrPanic_ok hparse
      obtain ⟨w, rest, rfl, rfl, hd⟩ := derives_of_parseResp hsafe.1
      have hf : ArraysFit frameSize f := fun k hk =>
        (parseRespOrPanic_eq_iff frameSize _ hb).mp hsafe.2 k
          ((announces_of_holdsArray hk hd).append rest)
      have halone := parseRespOrPanic_of_fits hd hf (by
        rw [List.append_nil]
        exact le_trans (by simp) hb)
      rw [List.append_nil] at halone
      simp only [List.take_left, List.drop_left]
      exact ⟨rest, rfl, le_trans (by simp) hb, rfl, not_lt.mp hm, f, hd, halone⟩

/-- A call takes some reads from the stream and handles the bytes that it then has. -/
theorem readLoop_handled (m : ℕ) (stream : List Bytes) (buffer : Bytes)
    (hb : buffer.length ≤ isizeMax) :
    ∃ read stream' buffer', (readLoop m stream buffer).2 = ⟨stream', buffer', m⟩ ∧
      stream = read ++ stream' ∧ buffer'.length ≤ isizeMax ∧
      Handled m (buffer ++ read.flatten) (readLoop m stream buffer).1 buffer' := by
  induction stream generalizing buffer with
  | nil =>
    by_cases hp : parseRespOrPanic frameSize buffer = some (.error .incomplete)
    · rw [readLoop.eq_def, hp]
      refine ⟨[], [], buffer, ?_, rfl, hb, ?_⟩
      all_goals simp only [ne_eq, not_true_eq_false, if_false, List.flatten_nil, List.append_nil]
      · split_ifs <;> rfl
      · split_ifs with h₁ h₂
        · rfl
        · exact ⟨List.isEmpty_iff.mp h₂, List.isEmpty_iff.mp h₂⟩
        · rfl
    · obtain ⟨buffer', h₁, h₂, h₃⟩ := readLoop_of_ne_incomplete (m := m) hb hp
      exact ⟨[], [], buffer', h₁, rfl, h₂, by simpa using h₃⟩
  | cons seg stream ih =>
    by_cases hp : parseRespOrPanic frameSize buffer = some (.error .incomplete)
    · by_cases hm : buffer.length > m
      · have hrun : readLoop m (seg :: stream) buffer =
            (some (.error frameTooLarge), ⟨seg :: stream, buffer, m⟩) := by
          rw [readLoop.eq_def, hp]
          simp [hm]
        rw [hrun]
        exact ⟨[], seg :: stream, buffer, rfl, rfl, hb, by simp [Handled]⟩
      · by_cases hs : seg = []
        · subst hs
          rw [readLoop.eq_def, hp]
          simp only [ne_eq, not_true_eq_false, hm, if_false]
          refine ⟨[[]], stream, buffer, ?_, rfl, hb, ?_⟩
          · split_ifs <;> rfl
          · split_ifs with h
            · exact ⟨by simpa using h, List.isEmpty_iff.mp h⟩
            · simp [Handled]
        · rw [readLoop_incomplete hp (not_lt.mp hm) hs]
          split_ifs with h₁ h₂
          · exact ⟨[], seg :: stream, buffer, rfl, rfl, hb, by simp [Handled]⟩
          · exact ⟨[seg], stream, buffer ++ seg, rfl, rfl, not_lt.mp h₁, by simp [Handled]⟩
          · obtain ⟨read, stream', buffer', hrun, rfl, hb', h⟩ := ih (buffer ++ seg) (not_lt.mp h₁)
            exact ⟨seg :: read, stream', buffer', hrun, rfl, hb', by
              rwa [List.flatten_cons, ← List.append_assoc]⟩
    · obtain ⟨buffer', h₁, h₂, h₃⟩ :=
        readLoop_of_ne_incomplete (m := m) hb hp
      exact ⟨[], seg :: stream, buffer', h₁, rfl, h₂, by simpa using h₃⟩

/-- What the calls of a connection do with the bytes: they hand on frames from their front, and
keep the rest. -/
theorem calls_handled {m : ℕ} (k : ℕ) (stream : List Bytes) (buffer : Bytes)
    (hb : buffer.length ≤ isizeMax) {frames : List Bytes} {conn : Connection}
    (h : calls k ⟨stream, buffer, m⟩ = (frames, conn)) :
    ∃ read, stream = read ++ conn.stream ∧ conn.maxFrameSize = m ∧
      conn.buffer.length ≤ isizeMax ∧ buffer ++ read.flatten = frames.flatten ++ conn.buffer ∧
      ∀ w ∈ frames, w.length ≤ m ∧
        ∃ f, Derives f w ∧ parseRespOrPanic frameSize w = some (.ok (f, w.length)) := by
  induction k generalizing stream buffer frames with
  | zero =>
    cases h
    exact ⟨[], rfl, rfl, hb, by simp, by simp⟩
  | succ k ih =>
    obtain ⟨read, stream', buffer', hconn, rfl, hb', hh⟩ := readLoop_handled m stream buffer hb
    rcases hv : readLoop m (read ++ stream') buffer with ⟨outcome, conn'⟩
    rw [hv] at hconn hh
    dsimp only at hconn hh
    subst hconn
    have hread : (⟨read ++ stream', buffer, m⟩ : Connection).readValue =
        (outcome, ⟨stream', buffer', m⟩) := hv
    have hstop (hbytes : buffer ++ read.flatten = buffer')
        (hcalls : calls (k + 1) ⟨read ++ stream', buffer, m⟩ = ([], ⟨stream', buffer', m⟩)) :
        ∃ read', read ++ stream' = read' ++ conn.stream ∧ conn.maxFrameSize = m ∧
          conn.buffer.length ≤ isizeMax ∧
          buffer ++ read'.flatten = frames.flatten ++ conn.buffer ∧
          ∀ w ∈ frames, w.length ≤ m ∧
            ∃ f, Derives f w ∧ parseRespOrPanic frameSize w = some (.ok (f, w.length)) := by
      rw [hcalls] at h
      cases h
      exact ⟨read, rfl, rfl, hb', hbytes, by simp⟩
    rcases outcome with _ | error | _ | w
    · exact hstop hh (by rw [calls, hread])
    · exact hstop hh (by rw [calls, hread])
    · exact hstop (hh.1.trans hh.2.symm) (by rw [calls, hread])
    · obtain ⟨hbytes, hm, hf⟩ := hh
      rw [calls, hread] at h
      dsimp only at h
      rcases hrest : calls k ⟨stream', buffer', m⟩ with ⟨frames', conn'⟩
      rw [hrest] at h
      cases h
      obtain ⟨read', rfl, hmax, hlen, hcut, hframes⟩ := ih stream' buffer' hb' hrest
      refine ⟨read ++ read', (List.append_assoc ..).symm, hmax, hlen, ?_,
        List.forall_mem_cons.mpr ⟨⟨hm, hf⟩, hframes⟩⟩
      rw [List.flatten_append, ← List.append_assoc, hbytes, List.append_assoc, hcut,
        List.flatten_cons, List.append_assoc]

/-- Whatever a client sends, in whatever reads: the frames handed on so far and the buffer are
the bytes read so far, the frames are the first ones of the only split of the stream, each of
them has at most `m` bytes and parses again to its end, and the end of the stream is only
reported when all bytes read were handed on. -/
theorem calls_new (m k : ℕ) (segments frames : List Bytes) (conn : Connection)
    (h : calls k (new segments m) = (frames, conn)) :
    (∃ read, segments = read ++ conn.stream ∧ read.flatten = frames.flatten ++ conn.buffer) ∧
      (∀ w ∈ frames, w.length ≤ m ∧
        ∃ f, Derives f w ∧ parseRespOrPanic frameSize w = some (.ok (f, w.length))) ∧
      (∃! words, IsSplit segments.flatten words) ∧
      (∀ words, IsSplit segments.flatten words → frames <+: words) ∧
      (conn.readValue.1 = some (.ok none) → ∃ read,
        segments = read ++ conn.readValue.2.stream ∧ read.flatten = frames.flatten ∧
          conn.readValue.2.buffer = []) := by
  obtain ⟨read, hread, hm, hlen, hcut, hframes⟩ :=
    calls_handled k segments [] (Nat.zero_le _) h
  rw [List.nil_append] at hcut
  refine ⟨⟨read, hread, hcut⟩, hframes, existsUnique_isSplit _, fun words hw => ?_, fun hend => ?_⟩
  · have hvalues : ∃ values, List.Forall₂ Derives values frames := by
      clear h hcut
      induction frames with
      | nil => exact ⟨[], .nil⟩
      | cons w frames ih =>
        obtain ⟨⟨-, f, hd, -⟩, hframes⟩ := List.forall_mem_cons.mp hframes
        obtain ⟨values, hv⟩ := ih hframes
        exact ⟨f :: values, .cons hd hv⟩
    obtain ⟨values, hv⟩ := hvalues
    rw [hread, List.flatten_append, hcut, List.append_assoc] at hw
    exact prefix_of_isSplit hv hw
  · obtain ⟨read', stream', buffer', hconn, hstream, -, hh⟩ :=
      readLoop_handled conn.maxFrameSize conn.stream conn.buffer hlen
    change (readLoop conn.maxFrameSize conn.stream conn.buffer).1 = _ at hend
    rw [hend] at hh
    obtain ⟨hbytes, rfl⟩ := hh
    obtain ⟨hbuffer, hrest⟩ := List.append_eq_nil_iff.mp hbytes
    have hafter : conn.readValue.2 = ⟨stream', [], conn.maxFrameSize⟩ := hconn
    refine ⟨read ++ read', ?_, ?_, by rw [hafter]⟩
    · rw [hafter, List.append_assoc, ← hstream, hread]
    · rw [List.flatten_append, hrest, hcut, hbuffer]
      simp

theorem calls_new_ping :
    (calls 1 (new [ping] 14)).1 <+: [ping] ∧
      ∀ words, IsSplit ping words → [ping] <+: words := by
  have h : calls 1 (new [ping] 14) = ([ping], ⟨[], [], 14⟩) := by decide +kernel
  obtain ⟨-, -, -, hsplit, -⟩ := calls_new 14 1 [ping] [ping] ⟨[], [], 14⟩ h
  rw [List.flatten_singleton] at hsplit
  exact ⟨by rw [h], hsplit⟩

end Soundness

end Connection

end RustKV

import RustKV.AofReplay
import RustKV.Connection
import RustKV.CliShell

/-! The clients read the replies. The bytes of a reply arrive in reads of any size; the loops of the
one-shot commands, of the shell and of the benchmark read until the buffer holds a reply. What they
make of the replies does not depend on the reads, and one reply after the other is read. -/
namespace RustKV
open Decimal

section Format

/-- `char::is_control` -/
def isControl (c : Char) : Bool := c.toNat < 32 || 127 ≤ c.toNat && c.toNat < 160

def isTerminalText (text : String) : Bool :=
  text.toList.all fun ch => !isControl ch || ch.toNat = 10 || ch.toNat = 13 || ch.toNat = 9

def hexDigit (n : ℕ) : Char := if n < 10 then Char.ofNat (48 + n) else Char.ofNat (87 + n)

def hexByte (byte : UInt8) : String :=
  String.ofList [hexDigit (byte.toNat / 16), hexDigit (byte.toNat % 16)]

def formatBytes (bytes : Bytes) : String :=
  let hex := "0x" ++ String.join (bytes.map hexByte)
  match fromUtf8 bytes with
  | some text => if isTerminalText text then text else hex
  | none => hex

def indentation (indent : ℕ) : String := String.join (List.replicate indent "  ")

mutual

def formatRespLines : RespFrame → ℕ → List String
  | .simpleString text, indent => [indentation indent ++ text]
  | .error text, indent => [indentation indent ++ "(error) " ++ text]
  | .integer number, indent => [indentation indent ++ "(integer) " ++ toString number.toInt]
  | .bulkString bytes, indent => [indentation indent ++ formatBytes bytes]
  | .array values, indent => formatEach values indent 1
  | .null, indent => [indentation indent ++ "(nil)"]

/-- The loop over the elements of an array, from that with the given number on. -/
def formatEach : List RespFrame → ℕ → ℕ → List String
  | [], _, _ => []
  | value :: values, indent, number =>
    (indentation indent ++ toString number ++ ")") ::
      (formatRespLines value (indent + 1) ++ formatEach values indent (number + 1))

end

def newline : String := String.singleton (Char.ofNat 10)

def formatResp (value : RespFrame) : String := newline.intercalate (formatRespLines value 0)

end Format

section Loops
variable {ε γ : Type}

/-- The loop of a client, a round for each read: `accept` tells what it makes of a response, of the
buffer that begins with it and of its length. `none` is a panic, as for `read_value`. -/
def receive (accept : RespFrame → Bytes → ℕ → Except ε γ × Bytes) (reject : ProtocolError → ε)
    (closed : ε) (stream : List Bytes) (buffer : Bytes) :
    Option (Except ε γ) × List Bytes × Bytes :=
  match parseRespOrPanic frameSize buffer with
  | none => (none, stream, buffer)
  | some (.ok (frame, consumed)) =>
    (some (accept frame buffer consumed).1, stream, (accept frame buffer consumed).2)
  | some (.error error) =>
    if error ≠ .incomplete then
      (some (.error (reject error)), stream, buffer)
    else
      match stream with
      | [] | [] :: _ => (some (.error closed), stream.tail, buffer)
      | (byte :: bytes) :: stream =>
        let grown := buffer ++ byte :: bytes
        if grown.length > isizeMax then
          (none, (byte :: bytes) :: stream, buffer)
        else
          receive accept reject closed stream grown

/-- A client that stays connected. `written` are the bytes of its requests. -/
structure Client where
  stream : List Bytes
  buffer : Bytes
  written : Bytes

def Client.connect (stream : List Bytes) : Client := ⟨stream, [], []⟩

/-- A loop that takes a response out of the buffer, and returns what `read` makes of it. -/
def Client.readWith (read : RespFrame → Except ε γ) (reject : ProtocolError → ε) (closed : ε)
    (client : Client) : Option (Except ε γ) × Client :=
  match receive (fun frame buffer consumed => (read frame, buffer.drop consumed)) reject closed
      client.stream client.buffer with
  | (result, stream, buffer) => (result, { client with stream := stream, buffer := buffer })

/-- A request is written, and then its response is read. -/
def Client.request (read : Client → Option (Except ε γ) × Client) (args : List Bytes)
    (client : Client) : Option (Except ε γ) × Client :=
  read { client with written := client.written ++ encodeCommand args }

/-- One request after the other. -/
def Client.requests (send : List Bytes → Client → Option (Except ε γ) × Client) :
    List (List Bytes) → Client → List (Option (Except ε γ)) × Client
  | [], client => ([], client)
  | args :: rest, client =>
    match send args client with
    | (result, client) =>
      match Client.requests send rest client with
      | (results, client) => (result :: results, client)

/-- What the shell and the one-shot commands say at the end of the stream. -/
def serverClosed : String := "server closed connection before sending a complete RESP response"

namespace ShellClient

def readResponseText : Client → Option (Except String String) × Client :=
  Client.readWith (fun frame => .ok (formatResp frame)) ProtocolError.toText serverClosed

def execute : List Bytes → Client → Option (Except String String) × Client :=
  Client.request readResponseText

end ShellClient

namespace BenchConnection

/-- An error of the server is one of the request. -/
def readFrame : RespFrame → IoResult Unit
  | .error message => .error ⟨.invalidData, message⟩
  | _ => .ok ()

def serverClosed : IoError := ⟨.unexpectedEof, "server closed before sending a complete response"⟩

def readResponse : Client → Option (IoResult Unit) × Client :=
  Client.readWith readFrame (fun error => ⟨.invalidData, "invalid RESP response: " ++ error.toText⟩)
    serverClosed

def sendCommand : List Bytes → Client → Option (IoResult Unit) × Client :=
  Client.request readResponse

end BenchConnection

/-- `read_response` of the one-shot commands, which keeps the buffer as it is. -/
def readResponse (stream : List Bytes) : Option (Except String Bytes) :=
  (receive (fun _ buffer _ => (.ok buffer, buffer)) ProtocolError.toText serverClosed stream []).1

/-- What a one-shot command prints once its request is written. -/
def runOneShot (stream : List Bytes) : Option (Except String (List String)) :=
  match readResponse stream with
  | none => none
  | some (.error error) => some (.error error)
  | some (.ok bytes) =>
    (parseRespOrPanic frameSize bytes).map fun
      | .error error => .error error.toText
      | .ok (response, _) => .ok (formatRespLines response 0)

end Loops

section Segments
variable {ε γ : Type} {f : RespFrame} {w more buffer : Bytes} {stream : List Bytes}

/-- A word at the front of the bytes to come is in the buffer, or the buffer is a proper prefix. -/
theorem front_cases {rest : Bytes} (h : buffer ++ rest = w ++ more) :
    (∃ behind, buffer = w ++ behind ∧ behind ++ rest = more) ∨ buffer <+: w ∧ buffer ≠ w := by
  have hbuffer : buffer <+: w ++ more := h ▸ List.prefix_append buffer rest
  by_cases hle : w.length ≤ buffer.length
  · left
    obtain ⟨behind, rfl⟩ := List.prefix_of_prefix_length_le (List.prefix_append w more) hbuffer hle
    rw [List.append_assoc] at h
    exact ⟨behind, rfl, List.append_cancel_left h⟩
  · right
    refine ⟨List.prefix_of_prefix_length_le hbuffer (List.prefix_append w more) (by omega), ?_⟩
    intro heq
    apply hle
    rw [heq]

/-- However the bytes are cut into reads, the loop reads the word at their front, and leaves the
bytes behind it. -/
theorem receive_word {accept : RespFrame → Bytes → ℕ → Except ε γ × Bytes} {reject : ProtocolError → ε}
    {closed : ε} (hd : Derives f w) (hf : ArraysFit frameSize f) (hs : ∀ seg ∈ stream, seg ≠ [])
    (hcut : buffer ++ stream.flatten = w ++ more) (hl : (w ++ more).length ≤ isizeMax) :
    ∃ stream' behind, receive accept reject closed stream buffer =
        (some (accept f (w ++ behind) w.length).1, stream', (accept f (w ++ behind) w.length).2) ∧
      behind ++ stream'.flatten = more ∧ ∀ seg ∈ stream', seg ≠ [] := by
  -- on the reads to come; until the word is whole, its front makes the loop read on
  induction stream generalizing buffer with
  | nil =>
    rcases front_cases hcut with ⟨behind, rfl, hbehind⟩ | ⟨hfront, hne⟩
    · have hlength : (w ++ behind).length ≤ isizeMax := by
        rw [← hbehind] at hl
        simp only [List.length_append] at hl ⊢
        omega
      refine ⟨[], behind, ?_, hbehind, hs⟩
      rw [receive.eq_def, parseRespOrPanic_of_fits hd hf hlength]
    · -- all bytes have been read
      rw [List.flatten_nil, List.append_nil] at hcut
      have hlength := hfront.length_le
      have hempty : more = [] := by
        rw [hcut, List.length_append] at hlength
        apply List.eq_nil_of_length_eq_zero
        omega
      rw [hempty, List.append_nil] at hcut
      exact absurd hcut hne
  | cons seg stream ih =>
    obtain ⟨hseg, hstream⟩ := List.forall_mem_cons.mp hs
    rcases front_cases hcut with ⟨behind, rfl, hbehind⟩ | ⟨hfront, hne⟩
    · have hlength : (w ++ behind).length ≤ isizeMax := by
        rw [← hbehind] at hl
        simp only [List.length_append] at hl ⊢
        omega
      refine ⟨seg :: stream, behind, ?_, hbehind, hs⟩
      rw [receive.eq_def, parseRespOrPanic_of_fits hd hf hlength]
    · have hword : w.length ≤ isizeMax := by
        rw [List.length_append] at hl
        omega
      have hparse := parseRespOrPanic_prefix_of_fits hd hf hword hfront hne
      have hgrown : (buffer ++ seg) ++ stream.flatten = w ++ more := by
        rw [List.append_assoc]
        exact hcut
      have hlength : ¬ (buffer ++ seg).length > isizeMax := by
        rw [← hgrown] at hl
        simp only [List.length_append] at hl ⊢
        omega
      obtain ⟨stream', behind, hreceive, hrest⟩ := ih hstream hgrown
      refine ⟨stream', behind, ?_, hrest⟩
      obtain ⟨byte, bytes, rfl⟩ := List.exists_cons_of_ne_nil hseg
      rw [receive, hparse]
      simp only [ne_eq, not_true_eq_false, if_false]
      rw [if_neg hlength]
      exact hreceive

/-- When the stream ends within a word, the loop says so. -/
theorem receive_cut {accept : RespFrame → Bytes → ℕ → Except ε γ × Bytes} {reject : ProtocolError → ε}
    {closed : ε} (hd : Derives f w) (hf : ArraysFit frameSize f) (hw : w.length ≤ isizeMax)
    (hs : ∀ seg ∈ stream, seg ≠ []) (hfront : buffer ++ stream.flatten <+: w)
    (hne : buffer ++ stream.flatten ≠ w) :
    receive accept reject closed stream buffer = (some (.error closed), [], buffer ++ stream.flatten) := by
  have hbuffer : buffer <+: w := (List.prefix_append ..).trans hfront
  have hshort : (buffer ++ stream.flatten).length < w.length := by
    apply lt_of_le_of_ne hfront.length_le
    intro hlength
    exact hne (hfront.eq_of_length hlength)
  have hproper : buffer ≠ w := by
    intro heq
    rw [heq, List.length_append] at hshort
    omega
  have hparse := parseRespOrPanic_prefix_of_fits hd hf hw hbuffer hproper
  induction stream generalizing buffer with
  | nil =>
    rw [receive.eq_def, hparse, List.flatten_nil, List.append_nil]
    simp
  | cons seg stream ih =>
    obtain ⟨hseg, hstream⟩ := List.forall_mem_cons.mp hs
    rw [List.flatten_cons, ← List.append_assoc] at hfront hne hshort ⊢
    have hgrown : buffer ++ seg <+: w := (List.prefix_append ..).trans hfront
    have hlength : ¬ (buffer ++ seg).length > isizeMax := by
      have := hgrown.length_le
      omega
    have hproper' : buffer ++ seg ≠ w := by
      intro heq
      rw [heq, List.length_append] at hshort
      omega
    obtain ⟨byte, bytes, rfl⟩ := List.exists_cons_of_ne_nil hseg
    rw [receive, hparse]
    simp only [ne_eq, not_true_eq_false, if_false]
    rw [if_neg hlength]
    exact ih hstream hfront hne hgrown hshort hproper'
      (parseRespOrPanic_prefix_of_fits hd hf hw hgrown hproper')

end Segments

section Replies
variable {ε γ : Type} {read : RespFrame → Except ε γ} {reject : ProtocolError → ε} {closed : ε}
  {client : Client} {more : Bytes}

theorem readWith_word {f : RespFrame} {w : Bytes} (hd : Derives f w) (hf : ArraysFit frameSize f)
    (hs : ∀ seg ∈ client.stream, seg ≠ [])
    (hcut : client.buffer ++ client.stream.flatten = w ++ more) (hl : (w ++ more).length ≤ isizeMax) :
    ∃ client', Client.readWith read reject closed client = (some (read f), client') ∧
      client'.written = client.written ∧ client'.buffer ++ client'.stream.flatten = more ∧
      ∀ seg ∈ client'.stream, seg ≠ [] := by
  have hword : ∃ stream behind, receive (fun frame buffer consumed => (read frame, buffer.drop consumed))
      reject closed client.stream client.buffer = (some (read f), stream, (w ++ behind).drop w.length) ∧
      behind ++ stream.flatten = more ∧ ∀ seg ∈ stream, seg ≠ [] := receive_word hd hf hs hcut hl
  obtain ⟨stream, behind, hreceive, hbehind, hstream⟩ := hword
  refine ⟨⟨stream, behind, client.written⟩, ?_, rfl, hbehind, hstream⟩
  unfold Client.readWith
  rw [hreceive, List.drop_left]

theorem fits_of_loadable {f : RespFrame} {w : Bytes} (hd : Derives f w) (hl : Loadable (w ++ more)) :
    ArraysFit frameSize f := by
  apply arraysFit_of_length hd
  refine le_trans (Nat.mul_le_mul_right _ ?_) hl
  rw [List.length_append]
  omega

/-- The replies are read one by one, and the bytes behind them stay. -/
theorem requests_replies {requests : List (List Bytes)} {replies : List RespFrame} {words : List Bytes}
    (hlength : requests.length = replies.length) (hwords : List.Forall₂ Derives replies words)
    (hs : ∀ seg ∈ client.stream, seg ≠ [])
    (hcut : client.buffer ++ client.stream.flatten = words.flatten ++ more)
    (hl : Loadable (words.flatten ++ more)) :
    ∃ client', Client.requests (Client.request (Client.readWith read reject closed)) requests client =
        (replies.map fun reply => some (read reply), client') ∧
      client'.written = client.written ++ (requests.map encodeCommand).flatten ∧
      client'.buffer ++ client'.stream.flatten = more ∧ ∀ seg ∈ client'.stream, seg ≠ [] := by
  induction hwords generalizing requests client with
  | nil =>
    obtain rfl := List.eq_nil_of_length_eq_zero hlength
    exact ⟨client, rfl, by simp, hcut, hs⟩
  | @cons reply w replies words hd hwords ih =>
    obtain ⟨args, rest, rfl⟩ : ∃ args rest, requests = args :: rest := by
      cases requests with
      | nil => cases hlength
      | cons args rest => exact ⟨args, rest, rfl⟩
    rw [List.flatten_cons, List.append_assoc] at hcut hl
    have hlater : Loadable (words.flatten ++ more) := by
      refine le_trans (Nat.mul_le_mul_right _ ?_) hl
      simp only [List.length_append]
      omega
    have hfirst : ∃ client₁, client.request (Client.readWith read reject closed) args =
        (some (read reply), client₁) ∧ client₁.written = client.written ++ encodeCommand args ∧
        client₁.buffer ++ client₁.stream.flatten = words.flatten ++ more ∧
        ∀ seg ∈ client₁.stream, seg ≠ [] :=
      readWith_word hd (fits_of_loadable hd hl) hs hcut hl.length_le
    obtain ⟨client₁, hread, hwritten₁, hleft₁, hstream⟩ := hfirst
    obtain ⟨client', hrequests, hwritten, hleft⟩ := ih (Nat.succ.inj hlength) hstream hleft₁ hlater
    refine ⟨client', ?_, ?_, hleft⟩
    · rw [Client.requests, hread]
      simp only [hrequests, List.map_cons]
    · rw [hwritten, hwritten₁, List.map_cons, List.flatten_cons, List.append_assoc]

/-- A request whose reply does not arrive as a whole is told that the stream has ended. -/
theorem request_cut {reply : RespValue} {args : List Bytes} (hsafe : LineSafe reply)
    (hl : Loadable (encodeResp reply)) (hs : ∀ seg ∈ client.stream, seg ≠ [])
    (hfront : client.buffer ++ client.stream.flatten <+: encodeResp reply)
    (hne : client.buffer ++ client.stream.flatten ≠ encodeResp reply) :
    (Client.request (Client.readWith read reject closed) args client).1 = some (.error closed) := by
  have hd : Derives reply (encodeResp reply) := derives_encodeResp reply hsafe hl.length_le
  have hfits : ArraysFit frameSize reply := by
    rw [← List.append_nil (encodeResp reply)] at hl
    exact fits_of_loadable hd hl
  unfold Client.request Client.readWith
  simp only [receive_cut hd hfits hl.length_le hs hfront hne]

/-- The encodings of replies that fit in memory are words. -/
theorem derives_replies {replies : List RespValue} (hsafe : ∀ v ∈ replies, LineSafe v)
    (hl : (replies.map encodeResp).flatten.length ≤ isizeMax) :
    List.Forall₂ Derives replies (replies.map encodeResp) := by
  induction replies with
  | nil => exact .nil
  | cons v replies ih =>
    obtain ⟨hv, hsafe⟩ := List.forall_mem_cons.mp hsafe
    rw [List.map_cons, List.flatten_cons, List.length_append] at hl
    refine .cons (derives_encodeResp v hv ?_) (ih hsafe ?_)
    · omega
    · omega

/-- A client that takes the responses out of its buffer stays in step with its server. -/
def StaysInStep {ε γ : Type} (send : List Bytes → Client → Option (Except ε γ) × Client)
    (read : RespFrame → Except ε γ) (closed : ε) (segments : List Bytes) (requests : List (List Bytes))
    (replies : List RespValue) (more : Bytes) : Prop :=
  ∃ client, Client.requests send requests (.connect segments) =
      (replies.map fun reply => some (read reply), client) ∧
    client.written = (requests.map encodeCommand).flatten ∧
    ∀ args next, LineSafe next → Loadable (encodeResp next) → more <+: encodeResp next →
      more ≠ encodeResp next → (send args client).1 = some (.error closed)

theorem staysInStep_readWith {requests : List (List Bytes)} {replies : List RespValue} {segments : List Bytes}
    (hlength : requests.length = replies.length) (hsafe : ∀ v ∈ replies, LineSafe v)
    (hs : ∀ seg ∈ segments, seg ≠ [])
    (hcut : segments.flatten = (replies.map encodeResp).flatten ++ more)
    (hl : Loadable segments.flatten) :
    StaysInStep (Client.request (Client.readWith read reject closed)) read closed segments requests replies
      more := by
  rw [hcut] at hl
  have hsmall : (replies.map encodeResp).flatten.length ≤ isizeMax := by
    have hall := hl.length_le
    rw [List.length_append] at hall
    omega
  have hreplies : ∃ client, Client.requests (Client.request (Client.readWith read reject closed)) requests
      (.connect segments) = (replies.map fun reply => some (read reply), client) ∧
      client.written = [] ++ (requests.map encodeCommand).flatten ∧
      client.buffer ++ client.stream.flatten = more ∧ ∀ seg ∈ client.stream, seg ≠ [] :=
    requests_replies hlength (derives_replies hsafe hsmall) hs hcut hl
  obtain ⟨client, hrequests, hwritten, hleft, hstream⟩ := hreplies
  refine ⟨client, hrequests, hwritten, ?_⟩
  intro args next hnext hfit hfront hne
  rw [← hleft] at hfront hne
  exact request_cut hnext hfit hstream hfront hne

/-- The shell and the benchmark stay in step with the server. Whatever the reads are in which the
replies arrive, and whatever comes behind them, each request gets what belongs to its own reply, also
after one that is an error. A request whose reply is cut off by the end of the stream is told so. -/
theorem clients_in_step {requests : List (List Bytes)} {replies : List RespValue}
    {segments : List Bytes} (hlength : requests.length = replies.length)
    (hsafe : ∀ v ∈ replies, LineSafe v) (hs : ∀ seg ∈ segments, seg ≠ [])
    (hcut : segments.flatten = (replies.map encodeResp).flatten ++ more)
    (hl : Loadable segments.flatten) :
    StaysInStep ShellClient.execute (fun reply => .ok (formatResp reply)) serverClosed segments requests
        replies more ∧
      StaysInStep BenchConnection.sendCommand BenchConnection.readFrame BenchConnection.serverClosed segments
        requests replies more :=
  ⟨staysInStep_readWith hlength hsafe hs hcut hl, staysInStep_readWith hlength hsafe hs hcut hl⟩

/-- The replies to three requests; the second one is an error. -/
def sampleReplies : List RespValue := [.bulkString [118], .error "ERR unknown command 'NOSUCH'", .null]

def sampleStream : Bytes := (sampleReplies.map encodeResp).flatten ++ [36, 49, 13]

/-- The replies in three reads, cut within the first one and within the second one, and the front of
one more reply. -/
theorem clients_in_step_error :
    StaysInStep ShellClient.execute (fun reply => .ok (formatResp reply)) serverClosed
      [sampleStream.take 5, (sampleStream.drop 5).take 20, sampleStream.drop 25]
      [[asBytes "GET", [107]], [asBytes "NOSUCH"], [asBytes "GET", [118]]] sampleReplies [36, 49, 13] ∧
    StaysInStep BenchConnection.sendCommand BenchConnection.readFrame BenchConnection.serverClosed
      [sampleStream.take 5, (sampleStream.drop 5).take 20, sampleStream.drop 25]
      [[asBytes "GET", [107]], [asBytes "NOSUCH"], [asBytes "GET", [118]]] sampleReplies [36, 49, 13] := by
  refine clients_in_step rfl ?_ (by decide +kernel) (by decide +kernel)
    (by unfold Loadable; decide +kernel)
  intro v hv
  simp only [sampleReplies, List.mem_cons, List.not_mem_nil, or_false] at hv
  rcases hv with rfl | rfl | rfl
  · exact .bulkString _
  · exact .error _ (by decide +kernel)
  · exact .null

/-- A one-shot command prints the lines that the shell shows for the same reply, whatever the reads
are, and says when the stream ends within it. -/
theorem one_shot_prints {reply : RespValue} {segments : List Bytes} (hsafe : LineSafe reply)
    (hs : ∀ seg ∈ segments, seg ≠ []) (hl : Loadable segments.flatten)
    (hreply : Loadable (encodeResp reply)) :
    (encodeResp reply <+: segments.flatten →
      runOneShot segments = some (.ok (formatRespLines reply 0))) ∧
    (segments.flatten <+: encodeResp reply → segments.flatten ≠ encodeResp reply →
      runOneShot segments = some (.error serverClosed)) := by
  have hd : Derives reply (encodeResp reply) := derives_encodeResp reply hsafe hreply.length_le
  have hfits : ArraysFit frameSize reply := by
    rw [← List.append_nil (encodeResp reply)] at hreply
    exact fits_of_loadable hd hreply
  constructor
  · rintro ⟨more, hcut⟩
    rw [← hcut] at hl
    have hword : ∃ stream behind, receive (fun _ buffer _ => (.ok buffer, buffer)) ProtocolError.toText
        serverClosed segments [] =
          (some (.ok (encodeResp reply ++ behind)), stream, encodeResp reply ++ behind) ∧
        behind ++ stream.flatten = more ∧ ∀ seg ∈ stream, seg ≠ [] :=
      receive_word hd hfits hs hcut.symm hl.length_le
    obtain ⟨stream, behind, hreceive, hbehind, -⟩ := hword
    have hread : readResponse segments = some (.ok (encodeResp reply ++ behind)) := by
      unfold readResponse
      rw [hreceive]
    have hlength : (encodeResp reply ++ behind).length ≤ isizeMax := by
      have hall := hl.length_le
      rw [← hbehind] at hall
      simp only [List.length_append] at hall ⊢
      omega
    unfold runOneShot
    rw [hread]
    simp only
    rw [parseRespOrPanic_of_fits hd hfits hlength]
    rfl
  · intro hfront hne
    have hread : readResponse segments = some (.error serverClosed) := by
      unfold readResponse
      rw [receive_cut hd hfits hreply.length_le hs hfront hne]
    unfold runOneShot
    rw [hread]

/-- A reply that comes in two reads, with the front of another one behind it. -/
theorem one_shot_prints_nil : runOneShot [[36, 45], [49, 13, 10, 58]] =
    some (.ok (formatRespLines .null 0)) :=
  (one_shot_prints .null (by decide) (by unfold Loadable; decide) (by unfold Loadable; decide)).1 ⟨[58], rfl⟩

end Replies

end RustKV

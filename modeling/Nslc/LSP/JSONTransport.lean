import Nslc.Common.Lines
/-!
# LSP — the transport

A message is a header of lines, an empty line and a body of as many bytes
as the header says. The reader takes the header one line at a time and
the body by its count, so it has to end each message on the byte where
the next one begins. How a JSON value is printed and parsed is a
parameter.
-/

namespace Nslc

namespace LSP

/-- `llvm::json`: a value as a string and back. A string is shorter than
half of what a `size_t` counts. -/
structure JsonText (Value : Type*) where
  print : Value → Text
  parse : Text → Option Value
  print_fits : ∀ v, (print v).length < 2 ^ 63

inductive FramingError where
  /-- "unexpected EOF in header section" -/
  | unexpectedEof
  /-- "missing Content-Length header" -/
  | missingLength
  /-- "short read (<got> of <expected> bytes)" -/
  | shortRead (got expected : ℕ)
  /-- "malformed JSON body" -/
  | malformed
  deriving DecidableEq, Repr

/-- What `readMessage` comes to; the last two both return nothing, and an
error is logged. -/
inductive Received (Value : Type*) where
  | message (v : Value)
  | endOfInput
  | framingError (e : FramingError)
  deriving DecidableEq, Repr

/-- What `readHeaderLine` found: whether a line ended there, the line and
the input after it. -/
structure HeaderRead where
  ok : Bool
  line : Text
  rest : Text
  deriving DecidableEq, Repr

/-- After a CR: a bare one is an error, and the byte after it is gone. -/
def readAfterCr : Text → HeaderRead
  | [] => ⟨false, [], []⟩
  | next :: rest => ⟨decide (next = '\n'), [], rest⟩

/-- `readHeaderLine`. -/
def readHeaderLine : Text → HeaderRead
  | [] => ⟨false, [], []⟩
  | c :: cs =>
    if c = '\r' then readAfterCr cs
    else if c = '\n' then ⟨true, [], cs⟩
    else { readHeaderLine cs with line := c :: (readHeaderLine cs).line }

/-- `StringRef::trim`'s characters. -/
def isTrimmed (c : Char) : Bool :=
  c = ' ' || c = '\t' || c = '\n' || c = '\x0b' || c = '\x0c' || c = '\r'

/-- `StringRef::trim`. -/
def trim (t : Text) : Text := (t.dropWhile isTrimmed).rdropWhile isTrimmed

/-- `StringRef::consumeInteger` to base ten, into a `uint64_t`: the number
and what follows it. -/
def consumeInteger (t : Text) : Option (ℕ × Text) :=
  let digits := t.takeWhile Char.isDigit
  if digits = [] ∨ 2 ^ 64 ≤ Nat.ofDigitChars 10 digits 0 then none
  else some (Nat.ofDigitChars 10 digits 0, t.dropWhile Char.isDigit)

def contentLengthKey : Text := "Content-Length:".toList

/-- `parseContentLength`. -/
def parseContentLength (line : Text) : Option ℕ :=
  if contentLengthKey.isPrefixOf line then
    match consumeInteger (trim (line.drop contentLengthKey.length)) with
    | some (n, []) => some n
    | _ => none
  else none

theorem readHeaderLine_lt {input : Text} (h : (readHeaderLine input).ok = true) :
    (readHeaderLine input).rest.length < input.length := by
  induction input with
  | nil => cases h
  | cons c cs ih =>
    rw [readHeaderLine] at h ⊢
    by_cases hcr : c = '\r'
    · rw [if_pos hcr]
      cases cs with
      | nil => exact Nat.zero_lt_one
      | cons next rest =>
        simp only [readAfterCr, List.length_cons]
        omega
    · rw [if_neg hcr] at h ⊢
      by_cases hlf : c = '\n'
      · rw [if_pos hlf]
        exact Nat.lt_succ_self _
      · rw [if_neg hlf] at h ⊢
        exact (ih h).trans (Nat.lt_succ_self _)

section
variable {Value : Type*} (json : JsonText Value)

/-- The body of `readMessage`, from the end of the header on. -/
def readBody (contentLength : Option ℕ) (input : Text) : Received Value × Text :=
  match contentLength with
  | none => (.framingError .missingLength, input)
  | some n =>
    if input.length < n then (.framingError (.shortRead input.length n), [])
    else
      match json.parse (input.take n) with
      | none => (.framingError .malformed, input.drop n)
      | some v => (.message v, input.drop n)

/-- The header of `readMessage`, with the length found so far. -/
def readHeader (contentLength : Option ℕ) (input : Text) : Received Value × Text :=
  let found := readHeaderLine input
  if _ : found.ok = true then
    if found.line = [] then readBody json contentLength found.rest
    else
      readHeader
        (match parseContentLength found.line with
        | some n => some n
        | none => contentLength)
        found.rest
  else if contentLength = none ∧ found.line = [] then (.endOfInput, found.rest)
  else (.framingError .unexpectedEof, found.rest)
termination_by input.length
decreasing_by exact readHeaderLine_lt ‹_›

/-- `JSONTransport::readMessage`: what it returns and the input left. -/
def readMessage (input : Text) : Received Value × Text := readHeader json none input

/-- The results of reading a number of times. -/
def readMessages : ℕ → Text → List (Received Value)
  | 0, _ => []
  | k + 1, input => (readMessage json input).1 :: readMessages k (readMessage json input).2

def lengthHeader (v : Value) : Text :=
  "Content-Length: ".toList ++ Nat.toDigits 10 (json.print v).length

/-- `JSONTransport::writeMessage`. -/
def writeMessage (msg : Value) : Text :=
  lengthHeader json msg ++ ['\r', '\n', '\r', '\n'] ++ json.print msg

/-! ## Other ways to frame a message -/

/-- The end of a header line. -/
inductive LineEnd where
  | crlf
  | lf
  deriving DecidableEq, Repr

def LineEnd.bytes : LineEnd → Text
  | .crlf => ['\r', '\n']
  | .lf => ['\n']

/-- A header line that is not about the length. -/
structure OtherHeader where
  text : Text
  lineEnd : LineEnd
  nonempty : text ≠ []
  noBreak : '\r' ∉ text ∧ '\n' ∉ text
  notLength : contentLengthKey.isPrefixOf text = false

def OtherHeader.bytes (h : OtherHeader) : Text := h.text ++ h.lineEnd.bytes

/-- A message with its header lines and line ends. -/
structure Frame (Value : Type*) where
  before : List OtherHeader
  lengthEnd : LineEnd
  after : List OtherHeader
  separatorEnd : LineEnd
  value : Value

def Frame.bytes (f : Frame Value) : Text :=
  f.before.flatMap OtherHeader.bytes ++ (lengthHeader json f.value ++ f.lengthEnd.bytes) ++
    f.after.flatMap OtherHeader.bytes ++ f.separatorEnd.bytes ++ json.print f.value

/-- **The framing round-trips**: what is written is read back, message by
message, and then the input ends. -/
def RoundTrips : Prop :=
  (∀ vs : List Value, readMessages json (vs.length + 1) (vs.flatMap (writeMessage json)) =
    vs.map .message ++ [.endOfInput]) ∧
  ∀ fs : List (Frame Value), readMessages json (fs.length + 1) (fs.flatMap (Frame.bytes json)) =
    (fs.map fun f => .message f.value) ++ [.endOfInput]

/-! ## Header lines -/

/-- A line without breaks is read up to its end. -/
theorem readHeaderLine_line (lineEnd : LineEnd) {line : Text} (h : '\r' ∉ line ∧ '\n' ∉ line)
    (rest : Text) : readHeaderLine (line ++ lineEnd.bytes ++ rest) = ⟨true, line, rest⟩ := by
  induction line with
  | nil => cases lineEnd <;> rfl
  | cons c cs ih =>
    have hcr : c ≠ '\r' := fun hc => h.1 (hc ▸ List.mem_cons_self)
    have hlf : c ≠ '\n' := fun hc => h.2 (hc ▸ List.mem_cons_self)
    have htail := ih ⟨fun hm => h.1 (List.mem_cons_of_mem _ hm),
      fun hm => h.2 (List.mem_cons_of_mem _ hm)⟩
    rw [List.cons_append, List.cons_append, readHeaderLine, if_neg hcr, if_neg hlf, htail]

theorem not_isTrimmed_of_isDigit {c : Char} (h : c.isDigit = true) : isTrimmed c = false := by
  by_contra hc
  have hws : isTrimmed c = true := by simpa using hc
  simp only [isTrimmed, Bool.or_eq_true, decide_eq_true_eq] at hws
  rcases hws with ((((rfl | rfl) | rfl) | rfl) | rfl) | rfl <;> exact absurd h (by decide)

theorem trim_digits {digits : Text} (h : ∀ c ∈ digits, c.isDigit = true) :
    trim (' ' :: digits) = digits := by
  have hdrop : (' ' :: digits).dropWhile isTrimmed = digits := by
    rw [List.dropWhile_cons_of_pos (by decide)]
    cases digits with
    | nil => rfl
    | cons c cs =>
      have := not_isTrimmed_of_isDigit (h c List.mem_cons_self)
      exact List.dropWhile_cons_of_neg (by simp [this])
  rw [trim, hdrop, List.rdropWhile_eq_self_iff]
  intro hne
  rw [not_isTrimmed_of_isDigit (h _ (List.getLast_mem hne))]
  exact Bool.false_ne_true

theorem consumeInteger_toDigits {n : ℕ} (h : n < 2 ^ 64) :
    consumeInteger (Nat.toDigits 10 n) = some (n, []) := by
  have hdigits : ∀ c ∈ Nat.toDigits 10 n, c.isDigit = true := fun c hc =>
    Nat.isDigit_of_mem_toDigits (by decide) (by decide) hc
  have htake : (Nat.toDigits 10 n).takeWhile Char.isDigit = Nat.toDigits 10 n :=
    List.takeWhile_eq_self_iff.2 hdigits
  have hdrop : (Nat.toDigits 10 n).dropWhile Char.isDigit = [] :=
    List.dropWhile_eq_nil_iff.2 hdigits
  have hvalue : Nat.ofDigitChars 10 (Nat.toDigits 10 n) 0 = n :=
    Nat.ofDigitChars_toDigits (by decide) (by decide)
  rw [consumeInteger]
  simp only [htake, hdrop, hvalue]
  rw [if_neg]
  rintro (hnil | hbig)
  · exact Nat.toDigits_ne_nil hnil
  · omega

/-- The length header says the length of the body. -/
theorem parseContentLength_lengthHeader (v : Value) :
    parseContentLength (lengthHeader json v) = some (json.print v).length := by
  have hkey : lengthHeader json v =
      contentLengthKey ++ (' ' :: Nat.toDigits 10 (json.print v).length) := rfl
  have hfits : (json.print v).length < 2 ^ 64 := (json.print_fits v).trans_le (Nat.pow_le_pow_right (by decide) (by decide))
  have htrim : trim (' ' :: Nat.toDigits 10 (json.print v).length) =
      Nat.toDigits 10 (json.print v).length := trim_digits fun c hc =>
    Nat.isDigit_of_mem_toDigits (by decide) (by decide) hc
  rw [parseContentLength, hkey, if_pos (by simp), List.drop_left, htrim,
    consumeInteger_toDigits hfits]

theorem lengthHeader_noBreak (v : Value) :
    '\r' ∉ lengthHeader json v ∧ '\n' ∉ lengthHeader json v := by
  have hdigits : ∀ c : Char, c.isDigit = false → c ∉ Nat.toDigits 10 (json.print v).length := by
    intro c hc hmem
    rw [Nat.isDigit_of_mem_toDigits (by decide) (by decide) hmem] at hc
    cases hc
  have hother : ∀ c : Char, c.isDigit = false → c ∉ "Content-Length: ".toList →
      c ∉ lengthHeader json v := fun c hc hkey hmem =>
    (List.mem_append.1 hmem).elim hkey (hdigits c hc)
  exact ⟨hother _ (by decide) (by decide), hother _ (by decide) (by decide)⟩

/-! ## One message after another -/

theorem readHeader_line (n : Option ℕ) (lineEnd : LineEnd) {line : Text} (hne : line ≠ [])
    (h : '\r' ∉ line ∧ '\n' ∉ line) (rest : Text) :
    readHeader json n (line ++ lineEnd.bytes ++ rest) =
      readHeader json (match parseContentLength line with
        | some n => some n
        | none => n) rest := by
  rw [readHeader]
  simp only [readHeaderLine_line lineEnd h, dite_true, if_neg hne]

/-- Other header lines are passed over. -/
theorem readHeader_others (n : Option ℕ) (hs : List OtherHeader) (rest : Text) :
    readHeader json n (hs.flatMap OtherHeader.bytes ++ rest) = readHeader json n rest := by
  induction hs with
  | nil => rfl
  | cons h hs ih =>
    have hnone : parseContentLength h.text = none := by
      rw [parseContentLength, h.notLength]
      rfl
    rw [List.flatMap_cons, OtherHeader.bytes, List.append_assoc,
      readHeader_line json n h.lineEnd h.nonempty h.noBreak, hnone, ih]

theorem readHeader_separator (n : Option ℕ) (lineEnd : LineEnd) (rest : Text) :
    readHeader json n (lineEnd.bytes ++ rest) = readBody json n rest := by
  have hline : readHeaderLine ([] ++ lineEnd.bytes ++ rest) = ⟨true, [], rest⟩ :=
    readHeaderLine_line lineEnd ⟨by simp, by simp⟩ rest
  rw [List.nil_append] at hline
  rw [readHeader]
  simp only [hline, dite_true, if_true]

/-- **One frame is one message**, and the next one begins behind it. -/
theorem readMessage_frame (hprint : ∀ v, json.parse (json.print v) = some v) (f : Frame Value)
    (rest : Text) : readMessage json (f.bytes json ++ rest) = (.message f.value, rest) := by
  have hne : lengthHeader json f.value ≠ [] := List.cons_ne_nil _ _
  have hbody : ¬ (json.print f.value ++ rest).length < (json.print f.value).length := by
    rw [List.length_append]
    omega
  rw [readMessage, Frame.bytes]
  simp only [List.append_assoc]
  rw [readHeader_others, ← List.append_assoc,
    readHeader_line json none f.lengthEnd hne (lengthHeader_noBreak json f.value),
    parseContentLength_lengthHeader, readHeader_others, readHeader_separator, readBody]
  rw [if_neg hbody, List.take_left, hprint, List.drop_left]

theorem readMessage_nil : readMessage json [] = (.endOfInput, []) := by
  rw [readMessage, readHeader]
  rfl

theorem readMessages_frames (hprint : ∀ v, json.parse (json.print v) = some v)
    (fs : List (Frame Value)) :
    readMessages json (fs.length + 1) (fs.flatMap (Frame.bytes json)) =
      (fs.map fun f => .message f.value) ++ [.endOfInput] := by
  induction fs with
  | nil =>
    rw [List.length_nil, readMessages, List.flatMap_nil, readMessage_nil]
    rfl
  | cons f fs ih =>
    rw [List.length_cons, readMessages, List.flatMap_cons, readMessage_frame json hprint, ih]
    rfl

/-- The frame `writeMessage` writes. -/
def plainFrame (v : Value) : Frame Value := ⟨[], .crlf, [], .crlf, v⟩

theorem writeMessage_eq (v : Value) : writeMessage json v = (plainFrame v).bytes json := by
  simp [writeMessage, Frame.bytes, plainFrame, LineEnd.bytes]

/-- **The framing round-trips** whenever printing and parsing do. -/
theorem roundTrips (hprint : ∀ v, json.parse (json.print v) = some v) : RoundTrips json := by
  refine ⟨fun vs => ?_, readMessages_frames json hprint⟩
  have hplain := readMessages_frames json hprint (vs.map plainFrame)
  have hbytes : (vs.map plainFrame).flatMap (Frame.bytes json) =
      vs.flatMap (writeMessage json) := by
    rw [List.flatMap_map]
    exact List.flatMap_congr fun v _ => (writeMessage_eq json v).symm
  rwa [hbytes, List.length_map, List.map_map] at hplain

end

/-- Three values: an object without members and two strings. -/
inductive SampleValue where
  | emptyObject
  | header
  | brace
  deriving DecidableEq

def sampleText : JsonText SampleValue where
  print
    | .emptyObject => "\x7b\x7d".toList
    | .header => "\"Content-Length: 9\"".toList
    | .brace => "\"\x7b\"".toList
  parse t :=
    if t = "\x7b\x7d".toList then some .emptyObject
    else if t = "\"Content-Length: 9\"".toList then some .header
    else if t = "\"\x7b\"".toList then some .brace
    else none
  print_fits := by rintro (_ | _ | _) <;> simp

theorem roundTrips_sample : RoundTrips sampleText :=
  roundTrips sampleText (by rintro (_ | _ | _) <;> decide)

example : readMessages sampleText 2
    "Content-Type: x\nContent-Length:  3 \r\n\n\"\x7b\"Content-Length: 2\r\n\r\n\x7b".toList =
      [.message .brace, .framingError (.shortRead 1 2)] := by
  decide +kernel

end LSP

end Nslc

import ClassSort.Proofs.Worker.Framing

/-!
A stream may hold any bytes at all. What a reader takes off it as a message is a packet: header lines, a blank
line and exactly as many bytes as the last of the lengths in the header says. Reading ends with every stream,
at its end or with an error, unless a header announces more than any buffer can hold: that stops the program
before a byte of the message was looked at, and nothing else does.
-/

namespace ClassSort.Frame

/-! ### Header lines -/

def lineText? (line : Bytes) : Option (List Char) := (charsOf? line).map trimChars

def IsLine (line : Bytes) : Prop := ∃ front, 10 ∉ front ∧ line = front ++ [10]

def IsFirst (line rest : Bytes) : Prop := IsLine line ∨ 10 ∉ line ∧ line ≠ [] ∧ rest = []

def HasText (line : Bytes) : Prop := ∃ text, text ≠ [] ∧ lineText? line = some text

structure IsField (line : Bytes) : Prop where
  whole : IsLine line
  text : HasText line

/-- The length in a header line; of a line that announces none there is no answer, and of a length that cannot
be read the answer is that there is none. -/
def fieldLength? (line : Bytes) : Option (Option Nat) := (lineText? line).bind announced?

def announcedBy (lines : List Bytes) : Option Nat := (lines.filterMap fieldLength?).getLast?.getD none

/-- Header lines and the blank line behind them, in front of `rest`. -/
structure Header (lines : List Bytes) (blank rest : Bytes) : Prop where
  fields : ∀ line ∈ lines, IsField line
  empty : lineText? blank = some []
  first : IsFirst blank rest

variable {line blank rest tail : Bytes} {lines : List Bytes} {ended : Bool} {n : Nat}

theorem charsOf?_nil : charsOf? [] = some [] := charsOf?_bytesOf []

theorem HasText.ne_nil (h : HasText line) : line ≠ [] := by
  rintro rfl
  obtain ⟨text, hne, htext⟩ := h
  have hempty : lineText? [] = some [] := congrArg (Option.map trimChars) charsOf?_nil
  rw [hempty] at htext
  exact hne (Option.some.inj htext).symm

theorem IsFirst.ne_nil (h : IsFirst line rest) : line ≠ [] := by
  obtain ⟨front, -, rfl⟩ | ⟨-, hne, -⟩ := h
  · simp
  · exact hne

theorem line?_first (h : IsFirst line rest) : line? true (line ++ rest) = some (line, rest) := by
  obtain ⟨front, hfront, rfl⟩ | ⟨hline, -, rfl⟩ := h
  · rw [List.append_assoc]
    exact line?_append hfront rest
  · rw [List.append_nil]
    exact line?_last hline

/-- A stream that holds something begins with a line. -/
theorem exists_first {bytes : Bytes} (h : bytes ≠ []) :
    ∃ line rest, bytes = line ++ rest ∧ IsFirst line rest := by
  by_cases hfeed : 10 ∈ bytes
  · obtain ⟨front, rest, rfl, hfront⟩ := List.eq_append_cons_of_mem hfeed
    exact ⟨front ++ [10], rest, by simp, .inl ⟨front, hfront, rfl⟩⟩
  · exact ⟨bytes, [], (List.append_nil bytes).symm, .inr ⟨hfeed, h, rfl⟩⟩

/-- Header lines are split off a stream up to its end or up to a line that is none. -/
theorem exists_fields (bytes : Bytes) : ∃ (lines : List Bytes) (rest : Bytes), bytes = lines.flatten ++ rest ∧
    (∀ line ∈ lines, IsField line) ∧
    (rest = [] ∨ ∃ line more, rest = line ++ more ∧ IsFirst line more ∧ ¬IsField line) := by
  induction hlength : bytes.length using Nat.strong_induction_on generalizing bytes with
  | _ length ih =>
    by_cases hbytes : bytes = []
    · exact ⟨[], [], by simp [hbytes], by simp, .inl rfl⟩
    · obtain ⟨line, more, rfl, hfirst⟩ := exists_first hbytes
      by_cases hfield : IsField line
      · have hshorter : more.length < length := by
          have := List.length_pos_of_ne_nil hfirst.ne_nil
          rw [List.length_append] at hlength
          omega
        obtain ⟨lines, rest, rfl, hlines, hrest⟩ := ih more.length hshorter more rfl
        exact ⟨line :: lines, rest, by simp, by simpa using ⟨hfield, hlines⟩, hrest⟩
      · exact ⟨[], line ++ more, by simp, by simp, .inr ⟨line, more, rfl, hfirst, hfield⟩⟩

/-- Behind a line the length in it counts, if it has one, until another one comes. -/
theorem announced_cons (line : Bytes) (lines : List Bytes) (length : Option Nat) :
    ((line :: lines).filterMap fieldLength?).getLast?.getD length =
      (lines.filterMap fieldLength?).getLast?.getD ((fieldLength? line).getD length) := by
  cases hline : fieldLength? line with
  | none => rw [List.filterMap_cons_none hline]; rfl
  | some found => rw [List.filterMap_cons_some hline, List.getLast?_cons]; rfl

/-- Header lines are passed one by one, and the last length among them is kept. -/
theorem readFrom_fields (h : ∀ line ∈ lines, IsField line) (fuel : Nat) (length : Option Nat)
    (sawHeader : Bool) :
    readFrom ended (lines.length + fuel) length sawHeader (lines.flatten ++ rest) =
      readFrom ended fuel ((lines.filterMap fieldLength?).getLast?.getD length)
        (sawHeader || !lines.isEmpty) rest := by
  induction lines generalizing length sawHeader with
  | nil => simp
  | cons line lines ih =>
    obtain ⟨⟨front, hfront, rfl⟩, text, hne, htext⟩ := h line List.mem_cons_self
    obtain ⟨c, cs, rfl⟩ := List.exists_cons_of_ne_nil hne
    have hline : line? ended ((front ++ [10]) ++ (lines.flatten ++ rest)) =
        some (front ++ [10], lines.flatten ++ rest) := by
      rw [List.append_assoc]
      exact line?_append hfront _
    have hlength : fieldLength? (front ++ [10]) = announced? (c :: cs) := by
      rw [fieldLength?, htext]
      rfl
    have hrest := ih (fun line hline => h line (List.mem_cons_of_mem _ hline))
      ((announced? (c :: cs)).getD length) true
    rw [lineText?] at htext
    rw [List.flatten_cons, List.append_assoc, List.length_cons, Nat.add_right_comm,
      readFrom_line hline (by simp), htext, announced_cons, hlength, List.isEmpty_cons, Bool.not_false,
      Bool.or_true]
    exact hrest

/-- A reader is behind the header lines in the end, and has fuel for each byte that is left. -/
theorem read_fields (ended : Bool) (h : ∀ line ∈ lines, IsField line) (rest : Bytes) : ∃ fuel,
    rest.length ≤ fuel ∧ read ended (lines.flatten ++ rest) =
      readFrom ended (fuel + 1) (announcedBy lines) (!lines.isEmpty) rest := by
  have hlines : lines.length ≤ (lines.flatMap id).length :=
    length_le_flatMap fun line hline => (h line hline).text.ne_nil
  rw [List.flatMap_id] at hlines
  refine ⟨(lines.flatten ++ rest).length - lines.length, ?_, ?_⟩
  · rw [List.length_append]
    omega
  · have hfuel : (lines.flatten ++ rest).length + 1 =
        lines.length + ((lines.flatten ++ rest).length - lines.length + 1) := by
      rw [List.length_append]
      omega
    rw [read, hfuel, readFrom_fields h, Bool.false_or, announcedBy]

/-- What the first line behind the header lines comes to. -/
theorem read_first (h : ∀ line ∈ lines, IsField line) (hfirst : IsFirst line rest) : ∃ fuel,
    read true (lines.flatten ++ (line ++ rest)) =
      match lineText? line with
      | none => .failed .broken
      | some [] => body true (announcedBy lines) rest
      | some text => readFrom true (fuel + 1) ((announced? text).getD (announcedBy lines)) true rest := by
  obtain ⟨fuel, hfuel, hread⟩ := read_fields true h (line ++ rest)
  have hpos := List.length_pos_of_ne_nil hfirst.ne_nil
  rw [List.length_append] at hfuel
  obtain ⟨fuel, rfl⟩ : ∃ more, fuel = more + 1 := ⟨fuel - 1, by omega⟩
  exact ⟨fuel, by rw [hread, readFrom_line (line?_first hfirst) hfirst.ne_nil]; rfl⟩

theorem read_header (h : Header lines blank rest) :
    read true (lines.flatten ++ (blank ++ rest)) = body true (announcedBy lines) rest := by
  obtain ⟨fuel, hread⟩ := read_first h.fields h.first
  rw [hread, h.empty]

/-! ### Packets -/

structure Packet where
  lines : List Bytes
  blank : Bytes
  body : Bytes
  value : Json
  fields : ∀ line ∈ lines, IsField line
  whole : IsLine blank
  empty : lineText? blank = some []
  announced : announcedBy lines = some body.length
  fits : body.length ≤ maxBuffer
  holds : (charsOf? body).bind Json.parseRaw? = some value

namespace Packet

def bytes (p : Packet) : Bytes := p.lines.flatten ++ (p.blank ++ p.body)

def message (p : Packet) : Json := p.value.canonical

theorem bytes_ne_nil (p : Packet) : p.bytes ≠ [] := by
  obtain ⟨front, -, hblank⟩ := p.whole
  simp [bytes, hblank]

theorem header (p : Packet) (rest : Bytes) : Header p.lines p.blank rest :=
  ⟨p.fields, p.empty, .inl p.whole⟩

end Packet

/-- What one call of the reader comes to, for each stream that has ended. -/
inductive Call : Bytes → Result → Prop where
  | finished : Call [] .finished
  /-- The stream ends within the header, behind a line or inside it. -/
  | exited {lines : List Bytes} {part : Bytes} (fields : ∀ line ∈ lines, IsField line)
      (cut : part = [] ∧ lines ≠ [] ∨ 10 ∉ part ∧ HasText part) :
      Call (lines.flatten ++ part) (.failed .exited)
  /-- A line is no UTF-8. -/
  | garbled {lines : List Bytes} {line rest : Bytes} (fields : ∀ line ∈ lines, IsField line)
      (first : IsFirst line rest) (text : lineText? line = none) :
      Call (lines.flatten ++ (line ++ rest)) (.failed .broken)
  | unannounced {lines : List Bytes} {blank rest : Bytes} (header : Header lines blank rest)
      (length : announcedBy lines = none) :
      Call (lines.flatten ++ (blank ++ rest)) (.failed (.protocol "missing Content-Length"))
  | overflow {lines : List Bytes} {blank rest : Bytes} {n : Nat} (header : Header lines blank rest)
      (length : announcedBy lines = some n) (large : maxBuffer < n) :
      Call (lines.flatten ++ (blank ++ rest)) .overflow
  | cutOff {lines : List Bytes} {blank rest : Bytes} {n : Nat} (header : Header lines blank rest)
      (length : announcedBy lines = some n) (fits : n ≤ maxBuffer) (short : rest.length < n) :
      Call (lines.flatten ++ (blank ++ rest)) (.failed .broken)
  | malformed {lines : List Bytes} {blank body rest : Bytes} (header : Header lines blank (body ++ rest))
      (length : announcedBy lines = some body.length) (fits : body.length ≤ maxBuffer)
      (text : (charsOf? body).bind Json.parseRaw? = none) :
      Call (lines.flatten ++ (blank ++ (body ++ rest))) (.failed .malformed)
  | message (p : Packet) (rest : Bytes) : Call (p.bytes ++ rest) (.message p.message rest)

/-- Behind a whole header stands a message, or the reader fails there. -/
theorem Header.exists_call (h : Header lines blank rest) :
    ∃ result, Call (lines.flatten ++ (blank ++ rest)) result := by
  cases hlength : announcedBy lines with
  | none => exact ⟨_, .unannounced h hlength⟩
  | some n =>
    by_cases hlarge : maxBuffer < n
    · exact ⟨_, .overflow h hlength hlarge⟩
    by_cases hshort : rest.length < n
    · exact ⟨_, .cutOff h hlength (Nat.le_of_not_lt hlarge) hshort⟩
    obtain ⟨body, more, rfl, rfl⟩ : ∃ body more, rest = body ++ more ∧ body.length = n :=
      ⟨rest.take n, rest.drop n, by simp, List.length_take_of_le (Nat.le_of_not_lt hshort)⟩
    cases hholds : (charsOf? body).bind Json.parseRaw? with
    | none => exact ⟨_, .malformed h hlength (Nat.le_of_not_lt hlarge) hholds⟩
    | some value =>
      -- no message is an empty text, so the blank line has its line feed
      have hwhole : IsLine blank := by
        obtain hwhole | ⟨-, -, hnone⟩ := h.first
        · exact hwhole
        · rw [(List.append_eq_nil_iff.mp hnone).1, charsOf?_nil] at hholds
          cases hholds
      let p : Packet := ⟨lines, blank, body, value, h.fields, hwhole, h.empty, hlength,
        Nat.le_of_not_lt hlarge, hholds⟩
      have hbytes : lines.flatten ++ (blank ++ (body ++ more)) = p.bytes ++ more := by
        simp [p, Packet.bytes]
      rw [hbytes]
      exact ⟨_, .message p more⟩

/-- On every stream a call comes to something. -/
theorem exists_call (bytes : Bytes) : ∃ result, Call bytes result := by
  obtain ⟨lines, rest, rfl, hlines, hrest⟩ := exists_fields bytes
  obtain rfl | ⟨line, more, rfl, hfirst, hfield⟩ := hrest
  · cases lines with
    | nil => exact ⟨_, .finished⟩
    | cons line lines => exact ⟨_, .exited hlines (.inl ⟨rfl, List.cons_ne_nil _ _⟩)⟩
  · rcases htext : lineText? line with _ | _ | ⟨c, cs⟩
    · exact ⟨_, .garbled hlines hfirst htext⟩
    · exact Header.exists_call ⟨hlines, htext, hfirst⟩
    · have hsays : HasText line := ⟨c :: cs, by simp, htext⟩
      obtain hwhole | ⟨hpart, -, rfl⟩ := hfirst
      · exact absurd ⟨hwhole, hsays⟩ hfield
      · rw [List.append_nil]
        exact ⟨_, .exited hlines (.inr ⟨hpart, hsays⟩)⟩

theorem body_of_fits {body : Bytes} (fits : body.length ≤ maxBuffer) :
    Frame.body ended (some body.length) (body ++ rest) =
      match (charsOf? body).bind Json.parseRaw? with
      | some v => .message v.canonical rest
      | none => .failed .malformed := by
  cases hvalue : (charsOf? body).bind Json.parseRaw? <;>
    rw [Frame.body, if_neg (Nat.not_lt.mpr fits), if_neg (by simp), List.take_left, List.drop_left, hvalue]

/-- A call comes to nothing else. -/
theorem Call.read_eq {bytes : Bytes} {result : Result} (h : Call bytes result) : read true bytes = result := by
  cases h with
  | finished => rfl
  | exited fields cut =>
    obtain ⟨rfl, hne⟩ | ⟨hpart, htext⟩ := cut
    · obtain ⟨fuel, -, hread⟩ := read_fields true fields []
      rw [hread, List.isEmpty_eq_false_iff.mpr hne]
      rfl
    · obtain ⟨text, hne, htext⟩ := htext
      obtain ⟨c, cs, rfl⟩ := List.exists_cons_of_ne_nil hne
      have hfirst : IsFirst _ [] := .inr ⟨hpart, HasText.ne_nil ⟨c :: cs, hne, htext⟩, rfl⟩
      obtain ⟨fuel, hread⟩ := read_first fields hfirst
      rw [List.append_nil, htext] at hread
      exact hread
  | garbled fields first text =>
    obtain ⟨fuel, hread⟩ := read_first fields first
    rw [hread, text]
  | unannounced header length =>
    rw [read_header header, length]
    rfl
  | overflow header length large =>
    rw [read_header header, length, Frame.body, if_pos large]
  | cutOff header length fits short =>
    rw [read_header header, length, Frame.body, if_neg (Nat.not_lt.mpr fits), if_pos short, if_pos rfl]
  | malformed header length fits text =>
    rw [read_header header, length, body_of_fits fits, text]
  | message p rest =>
    rw [Packet.bytes, List.append_assoc, List.append_assoc, read_header (p.header _), p.announced,
      body_of_fits p.fits, p.holds]
    rfl

theorem call_iff {bytes : Bytes} {result : Result} : Call bytes result ↔ read true bytes = result := by
  refine ⟨Call.read_eq, fun h => ?_⟩
  obtain ⟨found, hfound⟩ := exists_call bytes
  rwa [← h, hfound.read_eq]

/-! ### Streams -/

def Result.Stops (result : Result) : Prop := ∀ m rest, result ≠ .message m rest

theorem readMany_stops {bytes : Bytes} (h : (read ended bytes).Stops) (fuel : Nat) :
    readMany ended (fuel + 1) bytes = ([], read ended bytes) := by
  rw [readMany]
  split
  · next m rest hread => exact absurd hread (h m rest)
  · rfl

/-- Messages are taken off a stream until a call comes to something else. -/
theorem exists_packets (bytes : Bytes) : ∃ (packets : List Packet) (tail : Bytes),
    bytes = packets.flatMap Packet.bytes ++ tail ∧ (read true tail).Stops := by
  induction hlength : bytes.length using Nat.strong_induction_on generalizing bytes with
  | _ length ih =>
    by_cases hstops : (read true bytes).Stops
    · exact ⟨[], bytes, rfl, hstops⟩
    · obtain ⟨m, rest, hread⟩ : ∃ m rest, read true bytes = .message m rest := by
        simpa [Result.Stops] using hstops
      cases call_iff.mpr hread with
      | message p rest =>
        have hshorter : rest.length < length := by
          have := List.length_pos_of_ne_nil p.bytes_ne_nil
          rw [List.length_append] at hlength
          omega
        obtain ⟨packets, tail, rfl, htail⟩ := ih rest.length hshorter rest rfl
        exact ⟨p :: packets, tail, by simp, htail⟩

/-- Behind packets the reader is where it would be without them. -/
theorem readAll_packets (packets : List Packet) (h : (read true tail).Stops) :
    readAll true (packets.flatMap Packet.bytes ++ tail) = (packets.map Packet.message, read true tail) :=
  readAll_parts (fun p _ => p.bytes_ne_nil) (fun p _ rest => (Call.message p rest).read_eq)
    (readMany_stops h)

/-- Any bytes can be read. Each call comes to what stands there, and reading all of a stream takes packets off
it, each with its header and the bytes that it announces and no others, and then ends with something else than
a message. It stops the program exactly if a header that it comes to announces more than any buffer holds. So
a message that is shorter than announced is a broken stream up to that length only. -/
theorem reading_ends (bytes : Bytes) :
    Call bytes (read true bytes) ∧
    (∃ (packets : List Packet) (tail : Bytes) (last : Result),
      bytes = packets.flatMap Packet.bytes ++ tail ∧ Call tail last ∧ last.Stops ∧
        readAll true bytes = (packets.map Packet.message, last)) ∧
    ((readAll true bytes).2 = .overflow ↔
      ∃ (packets : List Packet) (lines : List Bytes) (blank rest : Bytes) (n : Nat),
        bytes = packets.flatMap Packet.bytes ++ (lines.flatten ++ (blank ++ rest)) ∧
          Header lines blank rest ∧ announcedBy lines = some n ∧ maxBuffer < n) ∧
    ∀ lines blank rest n, bytes = lines.flatten ++ (blank ++ rest) → Header lines blank rest →
      announcedBy lines = some n → rest.length < n →
        read true bytes = if n ≤ maxBuffer then .failed .broken else .overflow := by
  obtain ⟨packets, tail, hbytes, hstops⟩ := exists_packets bytes
  have hall := readAll_packets packets hstops
  rw [← hbytes] at hall
  refine ⟨call_iff.mpr rfl, ⟨packets, tail, _, hbytes, call_iff.mpr rfl, hstops, hall⟩, ⟨fun h => ?_, ?_⟩, ?_⟩
  · rw [hall] at h
    generalize hlast : read true tail = last at h
    cases call_iff.mpr hlast with
    | overflow header length large => exact ⟨packets, _, _, _, _, hbytes, header, length, large⟩
    | _ => cases h
  · rintro ⟨packets, lines, blank, rest, n, rfl, header, length, large⟩
    have hlast := (Call.overflow header length large).read_eq
    rw [readAll_packets packets (by rw [hlast]; nofun), hlast]
  · rintro lines blank rest n rfl header length short
    split
    · next fits => exact (Call.cutOff header length fits short).read_eq
    · next large => exact (Call.overflow header length (Nat.lt_of_not_le large)).read_eq

def lengthField (n : Nat) : Bytes := bytesOf (lengthLine n) ++ [13] ++ [10]

/-- Any length of 64 bits can be announced, in front of anything. -/
theorem header_lengthField (hn : n ≤ Json.u64Max) (rest : Bytes) :
    Header [lengthField n] [13, 10] rest ∧ announcedBy [lengthField n] = some n := by
  have htext : lineText? (lengthField n) = some (lengthLine n) := map_trimChars_lengthLine n
  have hfield : IsField (lengthField n) :=
    ⟨⟨_, newline_not_mem n, rfl⟩, lengthLine n, (isSolid_lengthLine n).ne, htext⟩
  refine ⟨⟨by simpa using hfield, map_trimChars_emptyLine, .inl ⟨[13], by decide, rfl⟩⟩, ?_⟩
  simp [announcedBy, fieldLength?, htext, announced?_lengthLine hn]

/-- The longest message that a buffer could hold, of which one byte came, behind a message that came whole. -/
theorem reading_ends_broken :
    ([lengthField maxBuffer].flatten ++ ([13, 10] ++ [0x7b]) = lengthField maxBuffer ++ [13, 10, 0x7b]) ∧
    Header [lengthField maxBuffer] [13, 10] [0x7b] ∧ announcedBy [lengthField maxBuffer] = some maxBuffer ∧
    ([0x7b] : Bytes).length < maxBuffer ∧
    read true (lengthField maxBuffer ++ [13, 10, 0x7b]) = .failed .broken := by
  obtain ⟨header, length⟩ := header_lengthField (n := maxBuffer) (by decide) [0x7b]
  have hbytes : [lengthField maxBuffer].flatten ++ ([13, 10] ++ [0x7b]) = lengthField maxBuffer ++ [13, 10, 0x7b] := by
    simp
  have hread := (reading_ends _).2.2.2 _ _ _ _ hbytes.symm header length (by decide)
  exact ⟨hbytes, header, length, by decide, hread⟩

/-- The length that follows the last one of a buffer stops the program, where the stream is only broken. -/
theorem hugeLength_stops :
    readAll true (bytesOf "Content-Length: 9223372036854775808\r\n\r\n".toList) = ([], .overflow) ∧
    ¬∀ lines blank rest n, Header lines blank rest → announcedBy lines = some n → rest.length < n →
      read true (lines.flatten ++ (blank ++ rest)) = .failed .broken := by
  obtain ⟨header, length⟩ := header_lengthField (n := maxBuffer + 1) (by decide) []
  have hbytes : bytesOf "Content-Length: 9223372036854775808\r\n\r\n".toList =
      [lengthField (maxBuffer + 1)].flatten ++ ([13, 10] ++ []) := by decide +kernel
  have hread := (Call.overflow header length (Nat.lt_succ_self _)).read_eq
  constructor
  · have hstops : (read true ([lengthField (maxBuffer + 1)].flatten ++ ([13, 10] ++ []))).Stops := by
      rw [hread]
      nofun
    rw [hbytes]
    exact (readAll_packets [] hstops).trans (congrArg _ hread)
  · intro h
    have hbroken := h _ _ _ _ header length (by decide)
    rw [hread] at hbroken
    cases hbroken

end ClassSort.Frame

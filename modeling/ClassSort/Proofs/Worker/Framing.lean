import ClassSort.Proofs.Json.RoundTrip
import ClassSort.Proofs.Text.Trim
import ClassSort.Worker.Frame

/-!
What is written in frames is read again, and a stream that was cut off is noticed. The header of a
frame is plain ASCII with its line feeds where a line ends, so the reader finds the length that was
announced, and the length counts bytes, so it takes exactly the text of the message. A cut inside a
frame leaves a header line without another behind it, or a text that is too short.
-/

namespace ClassSort.Frame

/-! ### Texts as bytes -/

theorem bytesOf_eq (cs : List Char) : bytesOf cs = cs.flatMap String.utf8EncodeChar := by
  simp [bytesOf, List.utf8Encode]

theorem bytesOf_append (cs ds : List Char) : bytesOf (cs ++ ds) = bytesOf cs ++ bytesOf ds := by
  simp only [bytesOf_eq, List.flatMap_append]

/-- Bytes that encode a text are decoded to it. -/
theorem charsOf?_bytesOf (cs : List Char) : charsOf? (bytesOf cs) = some cs := by
  have hbytes : (⟨(bytesOf cs).toArray⟩ : ByteArray) = cs.utf8Encode := by simp [bytesOf]
  rw [charsOf?, hbytes, List.utf8Decode?_utf8Encode]
  rfl

theorem bytesOf_ne_nil {cs : List Char} (h : cs ≠ []) : bytesOf cs ≠ [] := by
  obtain ⟨c, cs, rfl⟩ := List.exists_cons_of_ne_nil h
  simp [bytesOf_eq, String.utf8EncodeChar_ne_nil]

/-- ASCII characters are one byte each. -/
theorem bytesOf_ascii {cs : List Char} (h : ∀ c ∈ cs, c.toNat < 0x80) :
    bytesOf cs = cs.map fun c => c.val.toUInt8 := by
  rw [bytesOf_eq]
  induction cs with
  | nil => rfl
  | cons c cs ih =>
    have hc : c.utf8Size = 1 :=
      Char.utf8Size_eq_one_iff.mpr (UInt32.le_iff_toNat_le.mpr (Nat.le_of_lt_succ (h c List.mem_cons_self)))
    rw [List.flatMap_cons, String.utf8EncodeChar_eq_singleton hc,
      ih fun d hd => h d (List.mem_cons_of_mem c hd)]
    rfl

/-! ### The header -/

def lengthLine (n : Nat) : List Char := lengthHeader ++ Nat.toDigits 10 n

variable {n : Nat}

theorem mem_lengthLine {c : Char} (hc : c ∈ lengthLine n) : c.toNat < 0x80 ∧ c ≠ '\n' := by
  rw [lengthLine, List.mem_append] at hc
  obtain hc | hc := hc
  · have hall : lengthHeader.all (fun c => c.toNat < 0x80 && c != '\n') = true := by decide
    simpa using List.all_eq_true.mp hall c hc
  · have hdigit := Json.isDigit_of_mem_toDigits hc
    refine ⟨?_, Json.ne_of_isDigit hdigit rfl⟩
    simp only [Json.isDigit, Bool.and_eq_true, decide_eq_true_eq] at hdigit
    omega

/-- No line ends before the line feed behind the announced length. -/
theorem newline_not_mem (n : Nat) : 10 ∉ bytesOf (lengthLine n) ++ [13] := by
  rw [bytesOf_ascii fun c hc => (mem_lengthLine hc).1]
  intro h
  simp only [List.mem_append, List.mem_map, List.mem_singleton] at h
  obtain ⟨c, hc, hbyte⟩ | h := h
  · have hcode : c.toNat % 256 = 10 := congrArg UInt8.toNat hbyte
    rw [Nat.mod_eq_of_lt (Nat.lt_trans (mem_lengthLine hc).1 (by decide))] at hcode
    exact (mem_lengthLine hc).2 (Char.toNat_inj.mp hcode)
  · exact absurd h (by decide)

theorem isSolid_lengthLine (n : Nat) : IsSolid (lengthLine n) := by
  refine ⟨List.append_ne_nil_of_right_ne_nil _ Nat.toDigits_ne_nil, ?_, ?_⟩
  · intro c hc
    rw [lengthLine, List.head?_append_of_ne_nil _ (by decide)] at hc
    rw [show lengthHeader.head? = some 'C' by decide] at hc
    cases hc
    rfl
  · intro c hc
    rw [lengthLine, List.getLast?_append_of_ne_nil _ Nat.toDigits_ne_nil] at hc
    exact Json.isBlank_of_isDigit (Json.isDigit_of_mem_toDigits (List.mem_of_getLast? hc))

theorem length?_toDigits (hn : n ≤ Json.u64Max) : length? (Nat.toDigits 10 n) = some n := by
  have hall : (Nat.toDigits 10 n).all Json.isDigit = true :=
    List.all_eq_true.mpr fun d => Json.isDigit_of_mem_toDigits
  have hvalue : (Nat.toDigits 10 n).foldl (fun n c => n * 10 + Json.digitValue c) 0 = n := by
    have hfold := Nat.ofDigitChars_ten_toDigits (n := n)
    simp only [Nat.ofDigitChars, Nat.mul_comm 10, ← Json.digitValue_eq] at hfold
    exact hfold
  obtain ⟨d, ds, hds, hd⟩ := Json.toDigits_eq_cons n
  have hplus : d ≠ '+' := Json.ne_of_isDigit hd rfl
  rw [hds] at hall hvalue ⊢
  rw [length?.eq_def]
  split
  · next heq =>
    injection heq with hfirst _
    exact absurd hfirst hplus
  · simp [hall, hvalue, hn]

/-- The text of the line is what announces the length. -/
theorem map_trimChars_lengthLine (n : Nat) :
    (charsOf? (bytesOf (lengthLine n) ++ [13] ++ [10])).map trimChars = some (lengthLine n) := by
  have hend : bytesOf ['\r', '\n'] = [13, 10] := by decide
  rw [List.append_assoc, List.singleton_append, ← hend, ← bytesOf_append, charsOf?_bytesOf, Option.map_some]
  exact congrArg some (trimChars_around (List.forall_mem_nil _) (isSolid_lengthLine n) (by simp [isBlank]))

theorem announced?_lengthLine (hn : n ≤ Json.u64Max) : announced? (lengthLine n) = some (some n) := by
  rw [announced?, lengthLine, if_pos (by simp), List.drop_left, length?_toDigits hn]

/-- A frame is the line that announces a length, an empty line and as many bytes. -/
theorem write_eq (message : Json) :
    write message = bytesOf (lengthLine (bytesOf message.write).length) ++ [13] ++
      10 :: 13 :: 10 :: bytesOf message.write := by
  have hend : bytesOf ['\r', '\n', '\r', '\n'] = [13, 10, 13, 10] := by decide
  rw [write, ← lengthLine, bytesOf_append, hend]
  simp

/-! ### Lines of a stream -/

variable {line part rest : Bytes} {ended : Bool}

theorem line?_append (h : 10 ∉ line) (rest : Bytes) :
    line? ended (line ++ 10 :: rest) = some (line ++ [10], rest) := by
  have hall : ∀ b ∈ line, (b != 10) = true := fun b hb => bne_iff_ne.mpr fun heq => h (heq ▸ hb)
  rw [line?, List.dropWhile_append_of_pos hall, List.takeWhile_append_of_pos hall]
  simp

theorem line?_last (h : 10 ∉ line) : line? true line = some (line, []) := by
  have hall : line.dropWhile (· != 10) = [] :=
    List.dropWhile_eq_nil_iff.mpr fun b hb => bne_iff_ne.mpr fun heq => h (heq ▸ hb)
  rw [line?, hall]
  rfl

/-- What a line comes to that is not the end of the stream. -/
theorem readFrom_line {bytes : Bytes} (h : line? ended bytes = some (line, rest)) (hline : line ≠ [])
    (fuel : Nat) (length : Option Nat) (sawHeader : Bool) :
    readFrom ended (fuel + 1) length sawHeader bytes =
      match (charsOf? line).map trimChars with
      | none => .failed .broken
      | some [] => body ended length rest
      | some text => readFrom ended fuel ((announced? text).getD length) true rest := by
  obtain ⟨b, bs, rfl⟩ := List.exists_cons_of_ne_nil hline
  rcases htext : (charsOf? (b :: bs)).map trimChars with _ | _ | ⟨c, cs⟩
  all_goals simp only [readFrom, h, htext]

/-- The line that announces a length is taken off, and the length is kept. -/
theorem readFrom_lengthLine (hn : n ≤ Json.u64Max) (fuel : Nat) (length : Option Nat) (sawHeader : Bool)
    (rest : Bytes) :
    readFrom ended (fuel + 1) length sawHeader (bytesOf (lengthLine n) ++ [13] ++ 10 :: rest) =
      readFrom ended fuel (some n) true rest := by
  have hannounced := announced?_lengthLine hn
  rw [readFrom_line (line?_append (newline_not_mem n) rest) (by simp), map_trimChars_lengthLine]
  obtain ⟨c, cs, hcs⟩ := List.exists_cons_of_ne_nil (isSolid_lengthLine n).ne
  rw [hcs] at hannounced ⊢
  show readFrom ended fuel ((announced? (c :: cs)).getD length) true rest = _
  rw [hannounced]
  rfl

theorem map_trimChars_emptyLine : (charsOf? [13, 10]).map trimChars = some [] := by
  have hchars : charsOf? [13, 10] = some ['\r', '\n'] := charsOf?_bytesOf ['\r', '\n']
  rw [hchars]
  decide

/-- Behind an empty line stands the message. -/
theorem readFrom_emptyLine (fuel : Nat) (length : Option Nat) (sawHeader : Bool) (rest : Bytes) :
    readFrom ended (fuel + 1) length sawHeader (13 :: 10 :: rest) = body ended length rest := by
  have hline : line? ended (13 :: 10 :: rest) = some ([13, 10], rest) :=
    line?_append (by decide : (10 : UInt8) ∉ [13]) rest
  rw [readFrom_line hline (by simp), map_trimChars_emptyLine]

/-- The empty line may be cut off in front of its line feed. -/
theorem readFrom_return (fuel : Nat) (length : Option Nat) (sawHeader : Bool) :
    readFrom true (fuel + 1) length sawHeader [13] = body true length [] := by
  have hchars : charsOf? [13] = some ['\r'] := charsOf?_bytesOf ['\r']
  have htrim : trimChars ['\r'] = [] := by decide
  rw [readFrom_line (line?_last (by decide)) (by simp), hchars, Option.map_some, htrim]

/-! ### Messages -/

/-- A message that a frame can carry: it can be read from its text, which fits a buffer. No text in
memory is larger than the largest buffer. -/
structure Sendable (message : Json) : Prop where
  fits : message.Fits 127
  short : (bytesOf message.write).length ≤ maxBuffer

def Result.IsFatal (result : Result) : Prop := ∃ cause fatal, result = .failed cause fatal

variable {message : Json}

theorem write_ne_nil (message : Json) : write message ≠ [] := by
  simp [write_eq]

/-- A frame is read as its message, and no byte behind it is touched. -/
theorem read_write (h : Sendable message) (rest : Bytes) :
    read ended (write message ++ rest) = .message message rest := by
  have hlength : (bytesOf message.write).length ≤ Json.u64Max := Nat.le_trans h.short (by decide)
  have hcanonical : message.canonical = message := Json.canonical_of_fits h.fits
  obtain ⟨fuel, hfuel⟩ : ∃ fuel, (write message ++ rest).length + 1 = fuel + 2 := by
    obtain ⟨b, bs, hbs⟩ := List.exists_cons_of_ne_nil (write_ne_nil message)
    exact ⟨(bs ++ rest).length, by rw [hbs]; rfl⟩
  rw [read, hfuel, write_eq, List.append_assoc, List.cons_append, readFrom_lengthLine hlength]
  show readFrom ended (fuel + 1) _ true (13 :: 10 :: (bytesOf message.write ++ rest)) = _
  rw [readFrom_emptyLine, body]
  simp only [Nat.not_lt.mpr h.short, if_false]
  rw [if_neg (by simp), List.take_left, List.drop_left, charsOf?_bytesOf, Option.bind_some,
    Json.parseRaw?_write h.fits]
  simp only [hcanonical]

theorem body_cut {n : Nat} (hmax : n ≤ maxBuffer) (h : part.length < n) :
    (body true (some n) part).IsFatal := by
  refine ⟨.broken, rfl, ?_⟩
  simp [body, Nat.not_lt.mpr hmax, h]

/-- A stream that ends with its first line holds no message. -/
theorem readFrom_last (h : line? true part = some (line, [])) (hline : line ≠ []) (fuel : Nat) :
    (readFrom true (fuel + 2) none false part).IsFatal := by
  rw [readFrom_line h hline]
  split
  · exact ⟨.broken, rfl, rfl⟩
  · exact ⟨.protocol "missing Content-Length", rfl, rfl⟩
  · exact ⟨.exited, rfl, rfl⟩

/-- The beginning of two lists ends in the first or goes on into the second. -/
theorem prefix_append_cases {α : Type} {cut as bs : List α} (h : cut <+: as ++ bs) :
    cut <+: as ∨ ∃ more, cut = as ++ more ∧ more <+: bs := by
  obtain ⟨rest, hrest⟩ := h
  obtain ⟨more, has, -⟩ | ⟨more, hcut, hbs⟩ := List.append_eq_append_iff.mp hrest
  · exact .inl ⟨more, has.symm⟩
  · exact .inr ⟨more, hcut, rest, hbs.symm⟩

/-- A frame that is cut off inside is an error, wherever the cut is. -/
theorem read_cut (h : Sendable message) (hpart : part <+: write message) (hcut : part ≠ write message)
    (hne : part ≠ []) : (read true part).IsFatal := by
  obtain ⟨fuel, hfuel⟩ : ∃ fuel, part.length + 1 = fuel + 2 := by
    obtain ⟨b, bs, rfl⟩ := List.exists_cons_of_ne_nil hne
    exact ⟨bs.length, rfl⟩
  rw [read, hfuel]
  rw [write_eq] at hpart hcut
  have hlength : (bytesOf message.write).length ≤ Json.u64Max := Nat.le_trans h.short (by decide)
  have hpos : 0 < (bytesOf message.write).length := by
    obtain ⟨c, cs, hcs, -⟩ := Json.write_eq_cons h.fits
    exact List.length_pos_of_ne_nil (bytesOf_ne_nil (by simp [hcs]))
  obtain hline | ⟨more, rfl, hmore⟩ := prefix_append_cases hpart
  · -- no line feed has come yet
    exact readFrom_last (line?_last fun h => newline_not_mem _ (hline.subset h)) hne fuel
  obtain rfl | ⟨second, rfl, hsecond⟩ := List.prefix_cons_iff.mp hmore
  · rw [List.append_nil] at hne ⊢
    exact readFrom_last (line?_last (newline_not_mem _)) hne fuel
  obtain rfl | ⟨feed, rfl, hfeed⟩ := List.prefix_cons_iff.mp hsecond
  · -- the first line is whole, and nothing stands behind it
    exact readFrom_last (line?_append (newline_not_mem _) []) (by simp) fuel
  rw [readFrom_lengthLine hlength]
  obtain rfl | ⟨text, rfl, htext⟩ := List.prefix_cons_iff.mp hfeed
  · rw [readFrom_return]
    exact body_cut h.short hpos
  · rw [readFrom_emptyLine]
    refine body_cut h.short (Nat.lt_of_le_of_ne htext.length_le fun heq => hcut ?_)
    rw [htext.eq_of_length heq]

/-! ### Streams -/

def wire (messages : List Json) : Bytes := messages.flatMap write

theorem wire_cons (message : Json) (messages : List Json) :
    wire (message :: messages) = write message ++ wire messages := rfl

/-- A cut stream is some frames and the beginning of the next. -/
theorem exists_cut {messages : List Json} {cut : Bytes} (h : cut <+: wire messages)
    (hcut : cut ≠ wire messages) : ∃ whole next later part, messages = whole ++ next :: later ∧
      cut = wire whole ++ part ∧ part <+: write next ∧ part ≠ write next := by
  induction messages generalizing cut with
  | nil => exact absurd (List.prefix_nil.mp h) hcut
  | cons message messages ih =>
    by_cases hpart : cut <+: write message ∧ cut ≠ write message
    · exact ⟨[], message, messages, cut, rfl, rfl, hpart⟩
    · obtain ⟨more, rfl, hmore⟩ : ∃ more, cut = write message ++ more ∧ more <+: wire messages := by
        obtain hfirst | hmore := prefix_append_cases h
        · have hwhole : cut = write message := by_contra fun hne => hpart ⟨hfirst, hne⟩
          exact ⟨[], by rw [hwhole, List.append_nil], List.nil_prefix⟩
        · exact hmore
      obtain ⟨whole, next, later, part, rfl, rfl, hnext⟩ :=
        ih hmore fun heq => hcut (by rw [heq, wire_cons])
      exact ⟨message :: whole, next, later, part, rfl, by rw [wire_cons, List.append_assoc], hnext⟩

/-- Parts of a stream that are each read as a message are read one by one, up to what stands behind them. -/
theorem readMany_parts {α : Type} {part : α → Bytes} {message : α → Json} {parts : List α}
    (h : ∀ a ∈ parts, ∀ rest, read ended (part a ++ rest) = .message (message a) rest) {last : Result}
    (hlast : ∀ fuel, readMany ended (fuel + 1) rest = ([], last)) {fuel : Nat} (hfuel : parts.length < fuel) :
    readMany ended fuel (parts.flatMap part ++ rest) = (parts.map message, last) := by
  induction parts generalizing fuel with
  | nil =>
    obtain ⟨fuel, rfl⟩ := Nat.exists_eq_add_one_of_ne_zero (Nat.ne_of_gt hfuel)
    exact hlast fuel
  | cons a parts ih =>
    obtain ⟨fuel, rfl⟩ := Nat.exists_eq_add_one_of_ne_zero (Nat.ne_of_gt (Nat.zero_lt_of_lt hfuel))
    have hrest := ih (fun b hb => h b (List.mem_cons_of_mem _ hb)) (Nat.lt_of_succ_lt_succ hfuel)
    rw [List.flatMap_cons, List.append_assoc, readMany, h a List.mem_cons_self]
    simp only [hrest, List.map_cons]

theorem length_le_flatMap {α : Type} {part : α → Bytes} {parts : List α} (h : ∀ a ∈ parts, part a ≠ []) :
    parts.length ≤ (parts.flatMap part).length := by
  induction parts with
  | nil => exact Nat.zero_le _
  | cons a parts ih =>
    have hpos := List.length_pos_of_ne_nil (h a List.mem_cons_self)
    have hrest := ih fun b hb => h b (List.mem_cons_of_mem a hb)
    rw [List.flatMap_cons, List.length_append, List.length_cons]
    omega

/-- What reading a stream comes to is what its last part comes to, behind the messages in front of it. -/
theorem readAll_parts {α : Type} {part : α → Bytes} {message : α → Json} {parts : List α}
    (hne : ∀ a ∈ parts, part a ≠ [])
    (h : ∀ a ∈ parts, ∀ rest, read ended (part a ++ rest) = .message (message a) rest) {last : Result}
    (hlast : ∀ fuel, readMany ended (fuel + 1) rest = ([], last)) :
    readAll ended (parts.flatMap part ++ rest) = (parts.map message, last) := by
  refine readMany_parts h hlast ?_
  have := length_le_flatMap hne
  rw [List.length_append]
  omega

variable {messages : List Json}

theorem readAll_wire (h : ∀ m ∈ messages, Sendable m) {last : Result}
    (hlast : ∀ fuel, readMany ended (fuel + 1) rest = ([], last)) :
    readAll ended (wire messages ++ rest) = (messages, last) := by
  have hread := readAll_parts (fun m _ => write_ne_nil m) (fun m hm => read_write (h m hm)) hlast
  rwa [List.map_id''] at hread
  exact fun m => rfl

theorem readMany_nil (fuel : Nat) : readMany true (fuel + 1) [] = ([], .finished) := rfl

theorem readMany_isFatal {bytes : Bytes} (h : (read ended bytes).IsFatal) (fuel : Nat) :
    readMany ended (fuel + 1) bytes = ([], read ended bytes) := by
  obtain ⟨cause, fatal, hread⟩ := h
  rw [readMany, hread]

/-- Written messages are read back as they are, and a stream that was cut off gives the messages that
came whole: then its end, if the cut is between two frames, and otherwise an error that costs the
process. -/
theorem readAll_of_written (h : ∀ m ∈ messages, Sendable m) :
    readAll true (wire messages) = (messages, .finished) ∧
    ∀ cut, cut <+: wire messages → cut ≠ wire messages →
      ∃ whole next later part, messages = whole ++ next :: later ∧ cut = wire whole ++ part ∧
        part <+: write next ∧ part ≠ write next ∧
        (part = [] → readAll true cut = (whole, .finished)) ∧
        (part ≠ [] → ∃ last, last.IsFatal ∧ readAll true cut = (whole, last)) := by
  refine ⟨?_, fun cut hprefix hcut => ?_⟩
  · have hread := readAll_wire h readMany_nil
    rwa [List.append_nil] at hread
  · obtain ⟨whole, next, later, part, rfl, rfl, hpart, hnext⟩ := exists_cut hprefix hcut
    have hwhole : ∀ m ∈ whole, Sendable m := fun m hm => h m (List.mem_append_left _ hm)
    refine ⟨whole, next, later, part, rfl, rfl, hpart, hnext, ?_, fun hne => ?_⟩
    · rintro rfl
      exact readAll_wire hwhole readMany_nil
    · have hfatal := read_cut (h next (by simp)) hpart hnext hne
      exact ⟨read true part, hfatal, readAll_wire hwhole (readMany_isFatal hfatal)⟩

theorem readAll_of_written_two :
    (∀ m ∈ [Json.str "é", .arr [.int (-1)]], Sendable m) ∧
    (wire [Json.str "é", .arr [.int (-1)]]).take 30 <+:
      wire [.str "é", .arr [.int (-1)]] ∧
    (wire [Json.str "é", .arr [.int (-1)]]).take 30 ≠
      wire [.str "é", .arr [.int (-1)]] ∧
    readAll true (wire [.str "é", .arr [.int (-1)]]) =
      ([.str "é", .arr [.int (-1)]], .finished) ∧
    ∃ whole next later part, [Json.str "é", .arr [.int (-1)]] = whole ++ next :: later ∧
      (wire [Json.str "é", .arr [.int (-1)]]).take 30 = wire whole ++ part ∧
      part <+: write next ∧ part ≠ write next ∧
      (part = [] → readAll true ((wire [Json.str "é", .arr [.int (-1)]]).take 30) =
        (whole, .finished)) ∧
      (part ≠ [] → ∃ last, last.IsFatal ∧
        readAll true ((wire [Json.str "é", .arr [.int (-1)]]).take 30) = (whole, last)) := by
  have hsend : ∀ m ∈ [Json.str "é", .arr [.int (-1)]], Sendable m := by
    intro m hm
    simp only [List.mem_cons, List.not_mem_nil, or_false] at hm
    obtain rfl | rfl := hm
    · exact ⟨by simp [Json.Fits], by decide +kernel⟩
    · exact ⟨by simp [Json.Fits, Json.ItemsFit, Json.u64Max], by decide +kernel⟩
  have hprefix := List.take_prefix 30 (wire [Json.str "é", .arr [.int (-1)]])
  have hcut : (wire [Json.str "é", .arr [.int (-1)]]).take 30 ≠
      wire [.str "é", .arr [.int (-1)]] := by decide +kernel
  exact ⟨hsend, hprefix, hcut, (readAll_of_written hsend).1, (readAll_of_written hsend).2 _ hprefix hcut⟩

end ClassSort.Frame

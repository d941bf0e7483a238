import ClassSort.Json.Read
import ClassSort.Json.Write
import ClassSort.Order.Error
import ClassSort.Text.Blank

/-!
# Frames

Messages to and from a worker are JSON texts, each behind header lines that announce its length in
bytes and an empty line. A reader takes the header lines that end in a line feed, so it also
accepts lone line feeds, blanks around a line and headers that it does not know.
-/

namespace ClassSort.Frame

abbrev Bytes := List UInt8

def bytesOf (cs : List Char) : Bytes := (String.ofList cs).toUTF8.data.toList

def charsOf? (bytes : Bytes) : Option (List Char) :=
  (ByteArray.utf8Decode? ⟨bytes.toArray⟩).map Array.toList

def lengthHeader : List Char := "Content-Length: ".toList

def write (message : Json) : Bytes :=
  let body := bytesOf message.write
  bytesOf (lengthHeader ++ Nat.toDigits 10 body.length ++ ['\r', '\n', '\r', '\n']) ++ body

/-- What reading one frame comes to. -/
inductive Result where
  | message (value : Json) (rest : Bytes)
  /-- The stream ended between two frames. -/
  | finished
  | failed (cause : OracleError) (fatal : cause.isFatal = true := by rfl)
  /-- The announced length exceeds every buffer, and making one stops the program. -/
  | overflow
  /-- The stream is still open and the frame is not complete. -/
  | pending
  deriving Inhabited

def line? (ended : Bool) (bytes : Bytes) : Option (Bytes × Bytes) :=
  match bytes.dropWhile (· != 10) with
  | _ :: rest => some (bytes.takeWhile (· != 10) ++ [10], rest)
  | [] => if ended then some (bytes, []) else none

def length? (cs : List Char) : Option Nat :=
  let digits := match cs with
    | '+' :: rest => rest
    | _ => cs
  if digits.isEmpty || !digits.all Json.isDigit then none
  else
    let n := digits.foldl (fun n c => n * 10 + Json.digitValue c) 0
    if n ≤ Json.u64Max then some n else none

def announced? (line : List Char) : Option (Option Nat) :=
  if lengthHeader.isPrefixOf line then some (length? (line.drop lengthHeader.length)) else none

def maxBuffer : Nat := 0x7fffffffffffffff

def body (ended : Bool) (length : Option Nat) (bytes : Bytes) : Result :=
  match length with
  | none => .failed (.protocol "missing Content-Length")
  | some n =>
    if maxBuffer < n then .overflow
    else if bytes.length < n then if ended then .failed .broken else .pending
    else
      match (charsOf? (bytes.take n)).bind Json.parseRaw? with
      | some v => .message v.canonical (bytes.drop n)
      | none => .failed .malformed

def readFrom (ended : Bool) : Nat → Option Nat → Bool → Bytes → Result
  | 0, _, _, _ => .pending
  | fuel + 1, length, sawHeader, bytes =>
    match line? ended bytes with
    | none => .pending
    | some ([], _) => if sawHeader then .failed .exited else .finished
    | some (line, rest) =>
      match (charsOf? line).map trimChars with
      | none => .failed .broken
      | some [] => body ended length rest
      | some line => readFrom ended fuel ((announced? line).getD length) true rest

/-- Reads one frame off a stream, which may have ended or may still grow. -/
def read (ended : Bool) (bytes : Bytes) : Result := readFrom ended (bytes.length + 1) none false bytes

def readMany (ended : Bool) : Nat → Bytes → List Json × Result
  | 0, _ => ([], .pending)
  | fuel + 1, bytes =>
    match read ended bytes with
    | .message m rest =>
      let (messages, last) := readMany ended fuel rest
      (m :: messages, last)
    | last => ([], last)

/-- All messages of a stream, and what reading them ends with. -/
def readAll (ended : Bool) (bytes : Bytes) : List Json × Result := readMany ended (bytes.length + 1) bytes

end ClassSort.Frame

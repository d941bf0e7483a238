import ClassSort.Worker.Client

/-!
What a client comes to when it waits for an answer. It passes over notifications and answers to other
requests, and what stands behind them decides: the answer to its request, or the end of the process.
-/

namespace ClassSort

theorem Message.classify_isFatal {m : Json} {e : OracleError} (h : Message.classify m = .error e) :
    e.isFatal = true := by
  unfold classify at h
  repeat' split at h
  all_goals cases h <;> rfl

namespace Reading

/-- Notifications and answers to other requests are passed over. -/
def passes (id : Nat) : Reading → Bool
  | message m =>
    match Message.classify m with
    | .ok (.notification _ _) => true
    | .ok (.response got _) => got != id
    | .error _ => false
  | _ => false

def answer? : Reading → Option (Except ResponseError Json)
  | message m =>
    match Message.classify m with
    | .ok (.response _ result) => some result
    | _ => none
  | _ => none

def ahead (id : Nat) (readings : List Reading) : List Reading := readings.dropWhile (passes id)

def answerOf? (id : Nat) (readings : List Reading) : Option (Except ResponseError Json) :=
  (ahead id readings).head?.bind answer?

variable {id : Nat} {readings : List Reading}

theorem exists_of_answer? {r : Reading} {result : Except ResponseError Json} (hstays : r.passes id = false)
    (h : r.answer? = some result) : ∃ m, r = message m ∧ Message.classify m = .ok (.response id result) := by
  cases r with
  | closed => cases h
  | failed e => cases h
  | message m =>
    refine ⟨m, rfl, ?_⟩
    unfold passes at hstays
    unfold answer? at h
    cases hclass : Message.classify m with
    | error e => simp [hclass] at h
    | ok inbound =>
      cases inbound with
      | notification method params => simp [hclass] at h
      | response got found =>
        have hid : got = id := by simpa [hclass] using hstays
        have hfound : found = result := by simpa [hclass] using h
        rw [hid, hfound]

theorem head_ahead {r : Reading} {rest : List Reading} (h : ahead id readings = r :: rest) :
    r.passes id = false := by
  have hhead := List.head?_dropWhile_not (passes id) readings
  rw [show readings.dropWhile (passes id) = r :: rest from h] at hhead
  simpa using hhead

theorem mem_of_mem_ahead_tail {r : Reading} (h : r ∈ (ahead id readings).tail) : r ∈ readings :=
  (List.dropWhile_sublist _).subset (List.mem_of_mem_tail h)

/-- An answer that a client comes to was put out with the number of its request. -/
theorem exists_of_answerOf? {result : Except ResponseError Json} (h : answerOf? id readings = some result) :
    ∃ m, .message m ∈ readings ∧ Message.classify m = .ok (.response id result) := by
  unfold answerOf? at h
  cases hahead : ahead id readings with
  | nil => simp [hahead] at h
  | cons r rest =>
    have hanswer : r.answer? = some result := by simpa [hahead] using h
    obtain ⟨m, rfl, hclass⟩ := exists_of_answer? (head_ahead hahead) hanswer
    have hmem : .message m ∈ ahead id readings := by rw [hahead]; exact List.mem_cons_self
    exact ⟨m, (List.dropWhile_sublist _).subset hmem, hclass⟩

end Reading

namespace ResponseError

def reported : Except ResponseError Json → Except OracleError Json
  | .ok v => .ok v
  | .error e => .error (.remote e.code e.message)

variable {result other : Except ResponseError Json}

theorem reported_injective (h : reported result = reported other) : result = other := by
  cases result with
  | ok v =>
    cases other with
    | ok w => cases h; rfl
    | error e => cases h
  | error e =>
    cases other with
    | ok w => cases h
    | error failure =>
      obtain ⟨code, message⟩ := e
      obtain ⟨code', message'⟩ := failure
      cases h
      rfl

/-- An error that the worker answers with costs no process, and is told from one that could not be started. -/
theorem isFatal_of_reported {e : OracleError} (h : reported result = .error e) :
    e.isFatal = false ∧ ∀ program reason, e ≠ .spawn program reason := by
  cases result with
  | ok v => cases h
  | error failure =>
    cases h
    exact ⟨rfl, nofun⟩

end ResponseError

namespace Client

open Reading

variable {timeout id : Nat} {readings : List Reading}

theorem await_of_passes {r : Reading} (h : r.passes id = true) :
    await timeout id (r :: readings) = await timeout id readings := by
  cases r with
  | closed => cases h
  | failed e => cases h
  | message m =>
    rw [await]
    unfold passes at h
    cases hclass : Message.classify m with
    | error e => simp [hclass] at h
    | ok inbound =>
      cases inbound with
      | notification method params => rfl
      | response got result =>
        have hother : got ≠ id := by simpa [hclass] using h
        simp only [hother, if_false]

theorem await_ahead : await timeout id readings = await timeout id (ahead id readings) := by
  induction readings with
  | nil => rfl
  | cons r readings ih =>
    unfold ahead
    cases hpasses : r.passes id with
    | true =>
      rw [List.dropWhile_cons_of_pos hpasses, await_of_passes hpasses]
      exact ih
    | false => rw [List.dropWhile_cons_of_neg (by simp [hpasses])]

theorem await_response {m : Json} {result : Except ResponseError Json}
    (h : Message.classify m = .ok (.response id result)) :
    await timeout id (.message m :: readings) = (ResponseError.reported result, readings) := by
  rw [await, h]
  cases result <;> simp [ResponseError.reported]

theorem await_cutOff {r : Reading} (hstays : r.passes id = false) (h : r.answer? = none) :
    ∃ e, (await timeout id (r :: readings)).1 = .error e ∧ e.isFatal = true := by
  cases r with
  | closed => exact ⟨.exited, rfl, rfl⟩
  | failed e => rename_i fatal; exact ⟨e, rfl, fatal⟩
  | message m =>
    rw [await]
    unfold passes at hstays
    unfold answer? at h
    cases hclass : Message.classify m with
    | error e => exact ⟨e, rfl, Message.classify_isFatal hclass⟩
    | ok inbound =>
      cases inbound with
      | notification method params => simp [hclass] at hstays
      | response got result => simp [hclass] at h

/-- The answer is reported, and what stands behind it stays on the output. -/
theorem await_of_answered {result : Except ResponseError Json} (h : answerOf? id readings = some result) :
    await timeout id readings = (ResponseError.reported result, (ahead id readings).tail) := by
  rw [await_ahead]
  unfold answerOf? at h
  cases hahead : ahead id readings with
  | nil => simp [hahead] at h
  | cons r rest =>
    have hanswer : r.answer? = some result := by simpa [hahead] using h
    obtain ⟨m, rfl, hclass⟩ := exists_of_answer? (head_ahead hahead) hanswer
    exact await_response hclass

/-- Without an answer the worker is cut off. -/
theorem await_of_unanswered (timeout : Nat) (h : answerOf? id readings = none) :
    ∃ e, (await timeout id readings).1 = .error e ∧ e.isFatal = true := by
  rw [await_ahead]
  unfold answerOf? at h
  cases hahead : ahead id readings with
  | nil => exact ⟨.timeout timeout, rfl, rfl⟩
  | cons r rest => exact await_cutOff (head_ahead hahead) (by simpa [hahead] using h)

end Client

end ClassSort

import ClassSort.Proofs.Worker.Reading

/-!
The attempts of requests. A request may be sent several times until it is over, and a client has gone
through the attempts of all its requests. `Sends` says what one request does, attempt by attempt, and
`Stands` what a client knows after the attempts so far; every attempt keeps it.
-/

namespace ClassSort

structure Attempt where
  launch : Nat
  id : Nat
  method : String
  params : Json
  /-- The restarts counted when it is made. -/
  restarts : Nat
  /-- What the worker puts out upon it. -/
  output : List Reading
  /-- All there is to read then: what was left of older output, and this. -/
  readings : List Reading

namespace Attempt

def message (x : Attempt) : Json := Message.request x.id x.method x.params

def answer? (x : Attempt) : Option (Except ResponseError Json) := Reading.answerOf? x.id x.readings

/-- How many failures are counted after an attempt when `n` were counted before. An answer that is an
error neither counts nor ends the row. -/
def tally (n : Nat) (x : Attempt) : Nat :=
  match x.answer? with
  | some (.ok _) => 0
  | some (.error _) => n
  | none => n + 1

theorem min_tally (m n : Nat) (x : Attempt) : min m (x.tally (min m n)) = min m (x.tally n) := by
  unfold tally
  split <;> omega

end Attempt

def failures (past : List Attempt) : Nat := past.foldl Attempt.tally 0

theorem failures_append_singleton (past : List Attempt) (x : Attempt) :
    failures (past ++ [x]) = x.tally (failures past) := by
  simp [failures]

namespace Client

def sending (b : Behaviour) (method : String) (params : Json) (p : Process) (c : Client) : Attempt :=
  let received := p.received ++ [Message.request c.nextId method params]
  let written := b.writing p.launch received = .done
  { launch := p.launch
    id := c.nextId
    method, params
    restarts := c.restarts
    output := if written then b.output p.launch received else []
    readings := if written then p.pipe ++ b.output p.launch received else [] }

def attempts (b : Behaviour) (method : String) (params : Json) : Nat → Client → List Attempt
  | left, c =>
    match c.ensure b with
    | (.error _, _) => []
    | (.ok p, c) =>
      c.sending b method params p ::
        match c.exchange b method params p with
        | (.ok _, _) => []
        | (.error e, c) =>
          if !e.isFatal then []
          else
            match left with
            | 0 => []
            | left + 1 => attempts b method params left { c with process := none, restarts := c.restarts + 1 }

def attemptsOf (b : Behaviour) (method : String) (params : Json) (c : Client) : List Attempt :=
  c.attempts b method params (c.config.maxRestarts - c.restarts)

def kept (p : Process) (x : Attempt) : Option Process :=
  if x.answer?.isSome then
    some ⟨p.launch, p.received ++ [x.message], (Reading.ahead x.id x.readings).tail⟩
  else none

def after (p : Process) (x : Attempt) (c : Client) : Client :=
  { c with
    process := kept p x
    nextId := x.id + 1
    restarts := min c.config.maxRestarts (x.tally c.restarts) }

variable {b : Behaviour} {method : String} {params : Json} {p : Process} {c c' : Client} {left : Nat}

section Sending

@[simp] theorem sending_launch : (c.sending b method params p).launch = p.launch := rfl

@[simp] theorem sending_id : (c.sending b method params p).id = c.nextId := rfl

@[simp] theorem sending_method : (c.sending b method params p).method = method := rfl

@[simp] theorem sending_params : (c.sending b method params p).params = params := rfl

@[simp] theorem sending_restarts : (c.sending b method params p).restarts = c.restarts := rfl

@[simp] theorem sending_message :
    (c.sending b method params p).message = Message.request c.nextId method params := rfl

theorem sending_readings (h : b.writing p.launch (p.received ++ [Message.request c.nextId method params]) = .done) :
    (c.sending b method params p).readings =
      p.pipe ++ b.output p.launch (p.received ++ [Message.request c.nextId method params]) := by
  simp [sending, h]

/-- A request that is not written is not answered, whatever is left on the pipe. -/
theorem sending_unanswered (h : b.writing p.launch (p.received ++ [Message.request c.nextId method params]) ≠ .done) :
    (c.sending b method params p).answer? = none := by
  simp [sending, h, Attempt.answer?, Reading.answerOf?, Reading.ahead]

/-- What there is to read was left on the pipe or comes now. -/
theorem mem_sending_readings {r : Reading} (h : r ∈ (c.sending b method params p).readings) :
    r ∈ p.pipe ∨ r ∈ (c.sending b method params p).output := by
  unfold sending at h ⊢
  dsimp only at h ⊢
  split at h
  · rename_i hwritten
    rw [if_pos hwritten]
    exact List.mem_append.mp h
  · cases h

end Sending

def launching (c : Client) : Client := { c with launches := c.launches + 1 }

/-- What a client talks to: the process that it has, or a new one. -/
theorem ensure_cases {c₁ : Client} (h : c.ensure b = (.ok p, c₁)) :
    (c.process = some p ∧ c₁ = c) ∨ (c.process = none ∧ p = ⟨c.launches, [], []⟩ ∧ c₁ = c.launching) := by
  unfold ensure at h
  split at h
  · rename_i held hheld
    cases h
    exact .inl ⟨hheld, rfl⟩
  · split at h
    · cases h
    · dsimp only at h
      split at h
      · cases h
      · cases h
        exact .inr ⟨‹c.process = none›, rfl, rfl⟩

theorem ensure_error {e : OracleError} {c₁ : Client} (hcommand : c.config.command ≠ [])
    (h : c.ensure b = (.error e, c₁)) : c.process = none ∧ c₁ = c.launching ∧
      ∃ program reason, c.config.command.head? = some program ∧ b.refusal c.launches = some reason ∧
        e = .spawn program reason := by
  unfold ensure at h
  split at h
  · cases h
  · rename_i hnone
    split at h
    · rename_i hempty
      exact absurd hempty hcommand
    · rename_i program _ hprogram
      dsimp only at h
      split at h
      · rename_i reason hreason
        cases h
        exact ⟨hnone, rfl, program, reason, by rw [hprogram]; rfl, hreason, rfl⟩
      · cases h

section Exchange

variable {result : Except ResponseError Json}

theorem kept_of_answered {x : Attempt} (h : x.answer? = some result) :
    kept p x = some ⟨p.launch, p.received ++ [x.message], (Reading.ahead x.id x.readings).tail⟩ := by
  simp [kept, h]

theorem exchange_of_answered (h : (c.sending b method params p).answer? = some result) :
    c.exchange b method params p = (ResponseError.reported result,
      { c with process := kept p (c.sending b method params p), nextId := c.nextId + 1 }) := by
  rw [kept_of_answered h]
  unfold exchange
  by_cases hwriting : b.writing p.launch (p.received ++ [Message.request c.nextId method params]) = .done
  · rw [Attempt.answer?, sending_readings hwriting, sending_id] at h
    simp only [hwriting, await_of_answered h, sending_message, sending_id, sending_readings hwriting]
  · rw [sending_unanswered hwriting] at h
    cases h

/-- A fatal failure is what an attempt without an answer comes to. -/
theorem exchange_of_unanswered (h : (c.sending b method params p).answer? = none) :
    ∃ e pipe, e.isFatal = true ∧ c.exchange b method params p = (.error e,
      { c with
        process := some ⟨p.launch, p.received ++ [Message.request c.nextId method params], pipe⟩
        nextId := c.nextId + 1 }) := by
  unfold exchange
  cases hwriting : b.writing p.launch (p.received ++ [Message.request c.nextId method params]) with
  | broken => exact ⟨.broken, p.pipe, rfl, by simp only [hwriting]⟩
  | stalled => exact ⟨.timeout c.config.timeout, p.pipe, rfl, by simp only [hwriting]⟩
  | done =>
    rw [Attempt.answer?, sending_readings hwriting] at h
    obtain ⟨e, he, hfatal⟩ := await_of_unanswered c.config.timeout h
    exact ⟨e, _, hfatal, by simp only [hwriting, ← he]; rfl⟩

end Exchange

inductive Sends (b : Behaviour) (method : String) (params : Json) :
    Client → List Attempt → Except OracleError Json → Client → Prop where
  | refused {c e c₁} (hensure : c.ensure b = (.error e, c₁)) : Sends b method params c [] (.error e) c₁
  | answered {c p c₁ result} (hensure : c.ensure b = (.ok p, c₁))
      (hanswer : (c₁.sending b method params p).answer? = some result) :
      Sends b method params c [c₁.sending b method params p] (ResponseError.reported result)
        (c₁.after p (c₁.sending b method params p))
  | exhausted {c p c₁ e} (hensure : c.ensure b = (.ok p, c₁))
      (hnone : (c₁.sending b method params p).answer? = none)
      (hspent : c₁.config.maxRestarts ≤ c₁.restarts) (hfatal : e.isFatal = true) :
      Sends b method params c [c₁.sending b method params p] (.error e)
        (c₁.after p (c₁.sending b method params p))
  | repeated {c p c₁ log out c'} (hensure : c.ensure b = (.ok p, c₁))
      (hnone : (c₁.sending b method params p).answer? = none)
      (hleft : c₁.restarts < c₁.config.maxRestarts)
      (hrest : Sends b method params (c₁.after p (c₁.sending b method params p)) log out c') :
      Sends b method params c (c₁.sending b method params p :: log) out c'

theorem ensure_config {found : Except OracleError Process} {c₁ : Client} (h : c.ensure b = (found, c₁)) :
    c₁.config = c.config ∧ c₁.restarts = c.restarts ∧ c₁.nextId = c.nextId := by
  unfold ensure at h
  split at h
  · cases h
    exact ⟨rfl, rfl, rfl⟩
  · split at h
    · cases h
      exact ⟨rfl, rfl, rfl⟩
    · dsimp only at h
      split at h <;> cases h <;> exact ⟨rfl, rfl, rfl⟩

section Attempt

variable {c₁ : Client}

theorem attempt_of_refused {e : OracleError} (hensure : c.ensure b = (.error e, c₁)) :
    c.attempt b method params left = (.error e, c₁) ∧ c.attempts b method params left = [] := by
  unfold attempt attempts
  simp only [hensure, and_self]

theorem attempt_of_answered {result : Except ResponseError Json} (hensure : c.ensure b = (.ok p, c₁))
    (hanswer : (c₁.sending b method params p).answer? = some result)
    (hrestarts : c₁.restarts ≤ c₁.config.maxRestarts) :
    c.attempt b method params left =
      (ResponseError.reported result, c₁.after p (c₁.sending b method params p)) ∧
    c.attempts b method params left = [c₁.sending b method params p] := by
  unfold attempt attempts
  simp only [hensure, exchange_of_answered hanswer]
  cases result with
  | ok v => simp [ResponseError.reported, after, Attempt.tally, hanswer]
  | error e =>
    simp [ResponseError.reported, after, Attempt.tally, hanswer, OracleError.isFatal, Nat.min_eq_right hrestarts]

theorem after_of_unanswered {x : Attempt} (hnone : x.answer? = none) :
    c₁.after p x = { c₁ with
      process := none, nextId := x.id + 1, restarts := min c₁.config.maxRestarts (c₁.restarts + 1) } := by
  simp [after, kept, Attempt.tally, hnone]

theorem after_restarts_of_unanswered {x : Attempt} (hnone : x.answer? = none)
    (hleft : c₁.restarts < c₁.config.maxRestarts) : (c₁.after p x).restarts = c₁.restarts + 1 := by
  rw [after_of_unanswered hnone]
  exact Nat.min_eq_right hleft

theorem attempt_of_exhausted (hensure : c.ensure b = (.ok p, c₁))
    (hnone : (c₁.sending b method params p).answer? = none) (hspent : c₁.restarts = c₁.config.maxRestarts) :
    ∃ e : OracleError, e.isFatal = true ∧
      c.attempt b method params 0 = (.error e, c₁.after p (c₁.sending b method params p)) ∧
      c.attempts b method params 0 = [c₁.sending b method params p] := by
  obtain ⟨e, pipe, hfatal, hexchange⟩ := exchange_of_unanswered hnone
  have hafter : c₁.after p (c₁.sending b method params p) =
      { c₁ with process := none, nextId := c₁.nextId + 1 } := by
    rw [after_of_unanswered hnone, sending_id, Nat.min_eq_left (by omega), ← hspent]
  refine ⟨e, hfatal, ?_, ?_⟩
  · rw [attempt, hafter]
    simp [hensure, hexchange, hfatal]
  · rw [attempts]
    simp [hensure, hexchange, hfatal]

theorem attempt_of_repeated (hensure : c.ensure b = (.ok p, c₁))
    (hnone : (c₁.sending b method params p).answer? = none) (hleft : c₁.restarts < c₁.config.maxRestarts) :
    c.attempt b method params (left + 1) =
      (c₁.after p (c₁.sending b method params p)).attempt b method params left ∧
    c.attempts b method params (left + 1) = c₁.sending b method params p ::
      (c₁.after p (c₁.sending b method params p)).attempts b method params left := by
  obtain ⟨e, pipe, hfatal, hexchange⟩ := exchange_of_unanswered hnone
  rw [attempt, attempts, after_of_unanswered hnone, sending_id, Nat.min_eq_right hleft]
  simp [hensure, hexchange, hfatal]

end Attempt

/-- The induction is on the restarts left, which are exactly those that the counter leaves. -/
theorem attempt_sends (left : Nat) (c : Client) (h : left + c.restarts = c.config.maxRestarts) :
    Sends b method params c (c.attempts b method params left) (c.attempt b method params left).1
      (c.attempt b method params left).2 := by
  rcases hensure : c.ensure b with ⟨e | p, c₁⟩
  · obtain ⟨hattempt, hattempts⟩ := attempt_of_refused (b := b) hensure
    rw [hattempt, hattempts]
    exact .refused hensure
  · obtain ⟨hconfig, hrestarts, -⟩ := ensure_config hensure
    rw [← hrestarts, ← hconfig] at h
    cases hanswer : (c₁.sending b method params p).answer? with
    | some result =>
      obtain ⟨hattempt, hattempts⟩ := attempt_of_answered hensure hanswer (by omega)
      rw [hattempt, hattempts]
      exact .answered hensure hanswer
    | none =>
      cases left with
      | zero =>
        obtain ⟨e, hfatal, hattempt, hattempts⟩ := attempt_of_exhausted hensure hanswer (by omega)
        rw [hattempt, hattempts]
        exact .exhausted hensure hanswer (by omega) hfatal
      | succ left =>
        have hleft : c₁.restarts < c₁.config.maxRestarts := by omega
        obtain ⟨hattempt, hattempts⟩ := attempt_of_repeated hensure hanswer hleft
        rw [hattempt, hattempts]
        apply Sends.repeated hensure hanswer hleft
        apply attempt_sends
        rw [after_restarts_of_unanswered hanswer hleft]
        show left + (c₁.restarts + 1) = c₁.config.maxRestarts
        omega

def decoded {α : Type} (decode : Json → Option α) : Except OracleError Json → Except OracleError α
  | .error e => .error e
  | .ok v =>
    match decode v with
    | some a => .ok a
    | none => .error .malformed

theorem decoded_eq_ok {α : Type} {decode : Json → Option α} {out : Except OracleError Json} {a : α}
    (h : decoded decode out = .ok a) : ∃ v, out = .ok v ∧ decode v = some a := by
  unfold decoded at h
  split at h
  · cases h
  · rename_i v
    split at h
    · rename_i found hdecode
      cases h
      exact ⟨v, rfl, hdecode⟩
    · cases h

theorem decoded_eq_remote {α : Type} {decode : Json → Option α} {out : Except OracleError Json} {code : Int}
    {message : String} (h : decoded decode out = .error (.remote code message)) :
    out = .error (.remote code message) := by
  unfold decoded at h
  split at h
  · cases h
    rfl
  · split at h <;> cases h

theorem requestAs_eq {α : Type} (decode : Json → Option α) : c.requestAs b decode method params =
    (decoded decode (c.request b method params).1, (c.request b method params).2) := by
  unfold requestAs decoded
  generalize c.request b method params = sent
  obtain ⟨out, c'⟩ := sent
  cases out with
  | error e => rfl
  | ok v => cases h : decode v <;> simp only [h]

end Client

/-- A process received what was sent to it, and what is left on its pipe it put out upon that. -/
structure Process.IsTraced (past : List Attempt) (launches : Nat) (p : Process) : Prop where
  launch_lt : p.launch < launches
  received : p.received = (past.filter (·.launch == p.launch)).map Attempt.message
  pipe : ∀ r ∈ p.pipe, ∃ x ∈ past, x.launch = p.launch ∧ r ∈ x.output

structure Client.Stands (config : WorkerConfig) (past : List Attempt) (c : Client) : Prop where
  config_eq : c.config = config
  command : config.command ≠ []
  restarts : c.restarts = min config.maxRestarts (failures past)
  ids : (past.map Attempt.id).Pairwise (· < ·)
  ids_lt : ∀ x ∈ past, x.id < c.nextId
  launches_lt : ∀ x ∈ past, x.launch < c.launches
  origin : ∀ x ∈ past, ∀ r ∈ x.readings, ∃ y ∈ past, y.launch = x.launch ∧ r ∈ y.output
  running : c.process.map Process.launch = (past.getLast?.filter (·.answer?.isSome)).map Attempt.launch
  traced : ∀ p, c.process = some p → p.IsTraced past c.launches

namespace Client

section Standing

variable {config : WorkerConfig} {past log : List Attempt} {c₁ : Client} {out : Except OracleError Json}

theorem Stands.restarts_le (h : Stands config past c) : c.restarts ≤ c.config.maxRestarts := by
  rw [h.restarts, h.config_eq]
  exact Nat.min_le_left _ _

theorem Stands.command_ne (h : Stands config past c) : c.config.command ≠ [] := by
  rw [h.config_eq]
  exact h.command

theorem stands_new (h : Client.new config = .ok c) : Stands config [] c := by
  unfold Client.new at h
  split at h
  · cases h
  · rename_i hcommand
    cases h
    exact {
      config_eq := rfl
      command := by simpa using hcommand
      restarts := by simp [failures]
      ids := List.Pairwise.nil
      ids_lt := by simp
      launches_lt := by simp
      origin := by simp
      running := rfl
      traced := by simp }

theorem Stands.launching (h : Stands config past c) : Stands config past c.launching where
  config_eq := h.config_eq
  command := h.command
  restarts := h.restarts
  ids := h.ids
  ids_lt := h.ids_lt
  launches_lt := fun x hx => Nat.lt_succ_of_lt (h.launches_lt x hx)
  origin := h.origin
  running := h.running
  traced := by
    intro p hp
    obtain ⟨hlt, hreceived, hpipe⟩ := h.traced p hp
    exact ⟨Nat.lt_succ_of_lt hlt, hreceived, hpipe⟩

/-- A process that was just started has received nothing, and no attempt has its number. -/
theorem Stands.ensured (h : Stands config past c) (hensure : c.ensure b = (.ok p, c₁)) :
    p.IsTraced past c₁.launches ∧ ∀ x ∈ past, x.launch < c₁.launches := by
  obtain ⟨hheld, rfl⟩ | ⟨-, rfl, rfl⟩ := ensure_cases hensure
  · exact ⟨h.traced p hheld, h.launches_lt⟩
  · have hfresh : past.filter (·.launch == c.launches) = [] := by
      rw [List.filter_eq_nil_iff]
      intro x hx
      have hlt := h.launches_lt x hx
      simp only [beq_iff_eq]
      omega
    refine ⟨⟨Nat.lt_succ_self _, by rw [hfresh]; rfl, by simp⟩, ?_⟩
    intro x hx
    exact Nat.lt_succ_of_lt (h.launches_lt x hx)

/-- All that an attempt reads was put out by the process that it is sent to. -/
theorem sending_origin {launches : Nat} {r : Reading} (h : p.IsTraced past launches)
    (hr : r ∈ (c₁.sending b method params p).readings) :
    ∃ y ∈ past ++ [c₁.sending b method params p], y.launch = p.launch ∧ r ∈ y.output := by
  obtain hpipe | houtput := mem_sending_readings hr
  · obtain ⟨x, hx, hlaunch, hput⟩ := h.pipe r hpipe
    exact ⟨x, List.mem_append_left _ hx, hlaunch, hput⟩
  · exact ⟨_, List.mem_append_right _ List.mem_cons_self, rfl, houtput⟩

theorem kept_isTraced {p' : Process} {launches : Nat} (h : p.IsTraced past launches)
    (hkept : kept p (c₁.sending b method params p) = some p') :
    p'.IsTraced (past ++ [c₁.sending b method params p]) launches := by
  unfold kept at hkept
  split at hkept
  · cases hkept
    refine ⟨h.launch_lt, ?_, ?_⟩
    · simp [h.received]
    · intro r hr
      exact sending_origin h (Reading.mem_of_mem_ahead_tail hr)
  · cases hkept

/-- Every attempt keeps it. -/
theorem Stands.after (h : Stands config past c) (hensure : c.ensure b = (.ok p, c₁)) :
    Stands config (past ++ [c₁.sending b method params p])
      (c₁.after p (c₁.sending b method params p)) := by
  obtain ⟨hconfig, hrestarts, hid⟩ := ensure_config hensure
  obtain ⟨htraced, hlaunches⟩ := h.ensured hensure
  have hids : ∀ x ∈ past, x.id < c₁.nextId := fun x hx => hid ▸ h.ids_lt x hx
  refine ⟨hconfig.trans h.config_eq, h.command, ?restarts, ?ids, ?ids_lt, ?launches_lt, ?origin, ?running,
    ?traced⟩
  case restarts =>
    have hbefore : c₁.restarts = min config.maxRestarts (failures past) := hrestarts.trans h.restarts
    show min c₁.config.maxRestarts _ = _
    rw [failures_append_singleton, hbefore, hconfig, h.config_eq, Attempt.min_tally]
  case ids =>
    rw [List.map_append, List.pairwise_append]
    refine ⟨h.ids, List.pairwise_singleton _ _, ?_⟩
    intro i hi j hj
    obtain ⟨x, hx, rfl⟩ := List.mem_map.mp hi
    obtain rfl : j = c₁.nextId := by simpa using hj
    exact hids x hx
  case ids_lt =>
    rw [List.forall_mem_append, List.forall_mem_singleton]
    exact ⟨fun x hx => Nat.lt_succ_of_lt (hids x hx), Nat.lt_succ_self _⟩
  case launches_lt =>
    rw [List.forall_mem_append, List.forall_mem_singleton]
    exact ⟨hlaunches, htraced.launch_lt⟩
  case origin =>
    rw [List.forall_mem_append, List.forall_mem_singleton]
    refine ⟨?_, fun r => sending_origin htraced⟩
    intro x hx r hr
    obtain ⟨y, hy, hsource⟩ := h.origin x hx r hr
    exact ⟨y, List.mem_append_left _ hy, hsource⟩
  case running =>
    cases hanswer : (c₁.sending b method params p).answer? <;> simp [Client.after, kept, hanswer, Option.filter]
  case traced =>
    intro p' hp'
    exact kept_isTraced htraced hp'

/-- So does a request. -/
theorem Sends.stands (hsends : Sends b method params c log out c') (h : Stands config past c) :
    Stands config (past ++ log) c' := by
  induction hsends generalizing past with
  | refused hensure =>
    obtain ⟨-, rfl, -⟩ := ensure_error h.command_ne hensure
    rw [List.append_nil]
    exact h.launching
  | answered hensure hanswer => exact h.after hensure
  | exhausted hensure hnone hspent hfatal => exact h.after hensure
  | repeated hensure hnone hleft hrest ih =>
    have hrun := ih (h.after hensure)
    rwa [List.append_assoc] at hrun

theorem Stands.request_sends (h : Stands config past c) :
    Sends b method params c (c.attemptsOf b method params) (c.request b method params).1
      (c.request b method params).2 :=
  attempt_sends _ c (Nat.sub_add_cancel h.restarts_le)

end Standing

end Client

/-- The attempts that a client can have behind it: those of any requests, one after the other. -/
inductive Talks (b : Behaviour) (config : WorkerConfig) : List Attempt → Client → Prop where
  | start {c} (h : Client.new config = .ok c) : Talks b config [] c
  | ask {past c} {α : Type} (decode : Json → Option α) (method : String) (params : Json)
      (h : Talks b config past c) :
      Talks b config (past ++ c.attemptsOf b method params) (c.requestAs b decode method params).2

theorem Talks.stands {b : Behaviour} {config : WorkerConfig} {past : List Attempt} {c : Client}
    (h : Talks b config past c) : c.Stands config past := by
  induction h with
  | start hnew => exact Client.stands_new hnew
  | ask decode method params h ih =>
    rw [Client.requestAs_eq]
    exact ih.request_sends.stands ih

end ClassSort

import ClassSort.Proofs.Worker.Attempts

/-!
How often a request is sent and how it ends. The restarts that a request may use are those that the
failures before it have left over. A client holds a process exactly while the last attempt was answered.
-/

namespace ClassSort

def Behaviour.deaf : Behaviour where
  refusal := fun _ => none
  writing := fun _ _ => .broken
  output := fun _ _ => []

namespace Client

/-- How a request ends: with an answer to its last attempt, or with none to any. -/
inductive Ends (b : Behaviour) (c : Client) (log : List Attempt) (c' : Client) : Except OracleError Json → Prop where
  /-- The process that has answered is held. -/
  | answered {init x result p} (hlog : log = init ++ [x]) (hbefore : ∀ y ∈ init, y.answer? = none)
      (hanswer : x.answer? = some result) (hheld : c'.process = some p) (hlaunch : p.launch = x.launch)
      (hreceived : p.received.getLast? = some x.message) : Ends b c log c' (ResponseError.reported result)
  /-- All restarts are used up. -/
  | cutOff {e} (hlog : ∀ x ∈ log, x.answer? = none) (hspent : log.length + c.restarts = c.config.maxRestarts + 1)
      (hheld : c'.process = none) (hfatal : e.isFatal = true) : Ends b c log c' (.error e)
  /-- The last launch that was tried has failed, and this comes before the restarts are used up. -/
  | refused {program reason k} (hlog : ∀ x ∈ log, x.answer? = none)
      (hspare : log.length + c.restarts ≤ c.config.maxRestarts) (hheld : c'.process = none)
      (hprogram : c.config.command.head? = some program) (htried : c'.launches = k + 1)
      (hreason : b.refusal k = some reason) : Ends b c log c' (.error (.spawn program reason))

section

variable {b : Behaviour} {method : String} {params : Json} {c c' : Client} {log past : List Attempt}
  {out : Except OracleError Json} {config : WorkerConfig}

/-- An attempt without an answer uses up one restart, and the request goes on as it was. -/
theorem Ends.cons {c₁ : Client} {x : Attempt} (h : Ends b c₁ log c' out) (hnone : x.answer? = none)
    (hconfig : c₁.config = c.config) (hrestarts : c₁.restarts = c.restarts + 1) :
    Ends b c (x :: log) c' out := by
  cases h with
  | answered hlog hbefore hanswer hheld hlaunch hreceived =>
    rename_i init last _ _
    have hmore : x :: log = (x :: init) ++ [last] := by rw [hlog, List.cons_append]
    exact .answered hmore (by simpa [hnone] using hbefore) hanswer hheld hlaunch hreceived
  | cutOff hlog hspent hheld hfatal =>
    rw [hconfig, hrestarts] at hspent
    refine .cutOff (by simpa [hnone] using hlog) ?_ hheld hfatal
    rw [List.length_cons]
    omega
  | refused hlog hspare hheld hprogram htried hreason =>
    rw [hconfig] at hspare hprogram
    rw [hrestarts] at hspare
    refine .refused (by simpa [hnone] using hlog) ?_ hheld hprogram htried hreason
    rw [List.length_cons]
    omega

theorem Sends.ends (h : Sends b method params c log out c') (hrestarts : c.restarts ≤ c.config.maxRestarts)
    (hcommand : c.config.command ≠ []) : Ends b c log c' out := by
  induction h with
  | refused hensure =>
    obtain ⟨hheld, rfl, program, reason, hprogram, hreason, rfl⟩ := ensure_error hcommand hensure
    exact .refused (by simp) (by simpa using hrestarts) hheld hprogram rfl hreason
  | answered hensure hanswer =>
    exact .answered (List.nil_append _).symm (by simp) hanswer (kept_of_answered hanswer) rfl (by simp)
  | exhausted hensure hnone hspent hfatal =>
    obtain ⟨hconfig, hsame, -⟩ := ensure_config hensure
    rw [hconfig, hsame] at hspent
    refine .cutOff (by simpa using hnone) ?_ ?_ hfatal
    · rw [List.length_singleton]
      omega
    · rw [after_of_unanswered hnone]
  | @repeated c p c₁ log out c' hensure hnone hleft hrest ih =>
    obtain ⟨hconfig, hsame, -⟩ := ensure_config hensure
    have hnext := after_restarts_of_unanswered (p := p) hnone hleft
    have hends := ih (by rw [hnext]; exact hleft) (by rwa [← hconfig] at hcommand)
    exact hends.cons hnone hconfig (by rw [hnext, hsame])

/-- The restarts are counted up from attempt to attempt, and a restart is spent on each but the first. -/
theorem Sends.restarts (h : Sends b method params c log out c') :
    log.map Attempt.restarts = List.range' c.restarts log.length := by
  induction h with
  | refused hensure => rfl
  | answered hensure hanswer | exhausted hensure hnone hspent hfatal =>
    obtain ⟨-, hsame, -⟩ := ensure_config hensure
    simp [hsame]
  | @repeated c p c₁ log out c' hensure hnone hleft hrest ih =>
    obtain ⟨-, hsame, -⟩ := ensure_config hensure
    rw [after_restarts_of_unanswered hnone hleft, hsame] at ih
    rw [List.map_cons, ih, sending_restarts, hsame, List.length_cons, List.range'_succ]

/-- Every attempt, and nothing else, takes a number. -/
theorem Sends.nextId (h : Sends b method params c log out c') : c'.nextId = c.nextId + log.length := by
  induction h with
  | refused hensure => exact (ensure_config hensure).2.2
  | answered hensure hanswer | exhausted hensure hnone hspent hfatal =>
    obtain ⟨-, -, hid⟩ := ensure_config hensure
    rw [List.length_singleton, ← hid]
    rfl
  | @repeated c p c₁ log out c' hensure hnone hleft hrest ih =>
    obtain ⟨-, -, hid⟩ := ensure_config hensure
    change c'.nextId = c₁.nextId + 1 + log.length at ih
    rw [ih, hid, List.length_cons]
    omega

theorem Sends.length_le (h : Sends b method params c log out c') (hrestarts : c.restarts ≤ c.config.maxRestarts) :
    log.length + c.restarts ≤ c.config.maxRestarts + 1 := by
  induction h with
  | refused hensure => exact Nat.le_succ_of_le (by simpa using hrestarts)
  | answered hensure hanswer | exhausted hensure hnone hspent hfatal =>
    rw [List.length_singleton]
    omega
  | @repeated c p c₁ log out c' hensure hnone hleft hrest ih =>
    obtain ⟨hconfig, hsame, -⟩ := ensure_config hensure
    have hnext := after_restarts_of_unanswered (p := p) hnone hleft
    have hbound := ih (by rw [hnext]; exact hleft)
    rw [hnext] at hbound
    change log.length + (c₁.restarts + 1) ≤ c₁.config.maxRestarts + 1 at hbound
    rw [List.length_cons, ← hconfig, ← hsame]
    omega

theorem Stands.request_ends (h : Stands config past c) :
    Ends b c (c.attemptsOf b method params) (c.request b method params).2 (c.request b method params).1 :=
  h.request_sends.ends h.restarts_le h.command_ne

end

namespace Recovering

def settings : WorkerConfig := { WorkerConfig.new ["worker"] with maxRestarts := 1 }

def unused : Client := ⟨settings, none, 0, 0, 0⟩

def worker (answer : Json) : Behaviour where
  refusal := fun _ => none
  output := fun launch received =>
    match launch, received with
    | 1, [_] => [.message answer, .closed]
    | _, _ => [.closed]

def heard (answer : Json) : Client := (unused.requestAs (worker answer) some "load" .null).2

def lost : Attempt := ⟨0, 0, "load", .null, 0, [.closed], [.closed]⟩

def served (answer : Json) : Attempt :=
  ⟨1, 1, "load", .null, 1, [.message answer, .closed], [.message answer, .closed]⟩

def seven : Json := .obj [("id", .int 1), ("result", .int 7)]

def boom : Json := .obj [("error", .obj [("code", .int (-32000)), ("message", .str "boom")]), ("id", .int 1)]

theorem talks_unused (b : Behaviour) : Talks b settings [] unused := .start rfl

theorem talks_seven : Talks (worker seven) settings ([lost] ++ [served seven]) (heard seven) :=
  (talks_unused _).ask some "load" .null

theorem talks_boom : Talks (worker boom) settings ([lost] ++ [served boom]) (heard boom) :=
  (talks_unused _).ask some "load" .null

def late : Behaviour :=
  { worker (.obj [("id", .int 0), ("result", .int 7)]) with
    refusal := fun launch => if launch = 0 then some "too many processes" else none }

def waiting : Client := (unused.requestAs late some "load" .null).2

end Recovering

section

variable {b : Behaviour} {c : Client} {past : List Attempt} {config : WorkerConfig}

end

section

variable {b : Behaviour} {method : String} {params : Json} {c c' : Client} {log past : List Attempt}
  {out : Except OracleError Json} {config : WorkerConfig}

def IsCut {α : Type} (sent : Except OracleError α × Client) : Prop :=
  sent.2.isRunning = false ∧ ∃ e, sent.1 = .error e ∧ e.isFatal = true

/-- Whatever the worker does, the next request fails only after more than `n` attempts in a row did. -/
def Survives (n : Nat) (c : Client) : Prop :=
  ∀ (b : Behaviour) (method : String) (params : Json) {α : Type} (decode : Json → Option α),
    IsCut (c.requestAs b decode method params) →
      (∀ x ∈ c.attemptsOf b method params, x.answer? = none) ∧ n + 1 ≤ (c.attemptsOf b method params).length

theorem Stands.of_isCut {α : Type} {decode : Json → Option α} (h : Stands config past c)
    (hcut : IsCut (c.requestAs b decode method params)) :
    (∀ x ∈ c.attemptsOf b method params, x.answer? = none) ∧
    (c.attemptsOf b method params).length + c.restarts = config.maxRestarts + 1 := by
  have hends : Ends b c (c.attemptsOf b method params) _ _ := h.request_ends
  rw [requestAs_eq] at hcut
  obtain ⟨hgone, e, he, hfatal⟩ := hcut
  change (c.request b method params).2.isRunning = false at hgone
  generalize (c.request b method params).1 = out at hends he
  cases hends with
  | answered hlog hbefore hanswer hheld hlaunch hreceived => simp [isRunning, hheld] at hgone
  | cutOff hlog hspent hheld hfatal => exact ⟨hlog, h.config_eq ▸ hspent⟩
  | refused hlog hspare hheld hprogram htried hreason =>
    cases he
    cases hfatal

theorem Sends.isCut_of_deaf (h : Sends .deaf method params c log out c') (hcommand : c.config.command ≠ []) :
    IsCut (out, c') := by
  induction h with
  | refused hensure =>
    obtain ⟨-, -, program, reason, -, hreason, -⟩ := ensure_error hcommand hensure
    cases hreason
  | answered hensure hanswer =>
    rw [sending_unanswered (by exact nofun)] at hanswer
    cases hanswer
  | exhausted hensure hnone hspent hfatal =>
    refine ⟨?_, _, rfl, hfatal⟩
    rw [after_of_unanswered hnone]
    rfl
  | repeated hensure hnone hleft hrest ih => exact ih (by rwa [← (ensure_config hensure).1] at hcommand)

theorem Stands.survives_iff_le {n : Nat} (h : Stands config past c) :
    c.Survives n ↔ n + c.restarts ≤ config.maxRestarts := by
  constructor
  · intro hsurvives
    have hdeaf : Sends .deaf "" .null c (c.attemptsOf .deaf "" .null) _ _ := h.request_sends
    have hcut : IsCut (c.requestAs .deaf some "" .null) := by
      obtain ⟨hgone, e, he, hfatal⟩ := hdeaf.isCut_of_deaf h.command_ne
      change (c.request .deaf "" .null).1 = .error e at he
      rw [requestAs_eq]
      exact ⟨hgone, e, by rw [he]; rfl, hfatal⟩
    have hmany := (hsurvives _ _ _ _ hcut).2
    have hall := (h.of_isCut hcut).2
    omega
  · intro hle b method params α decode hcut
    obtain ⟨hlog, hlength⟩ := h.of_isCut hcut
    exact ⟨hlog, by omega⟩

/-- Behind an answer the next request has all restarts to spare, or the answer is an error that came
after failures, which still count. -/
theorem survives_iff {before : List Attempt} {x : Attempt} {result : Except ResponseError Json}
    (h : Talks b config (before ++ [x]) c) (hanswer : x.answer? = some result) :
    c.Survives config.maxRestarts ↔
      (∃ v, result = .ok v) ∨ config.maxRestarts = 0 ∨ failures before = 0 := by
  rw [h.stands.survives_iff_le, h.stands.restarts, failures_append_singleton]
  cases result with
  | ok v => simp [Attempt.tally, hanswer]
  | error e =>
    have htally : x.tally (failures before) = failures before := by simp [Attempt.tally, hanswer]
    rw [htally]
    simp only [reduceCtorEq, exists_false, false_or]
    omega

end

open Recovering in
theorem survives_seven : (heard seven).Survives settings.maxRestarts := by
  have hanswer : (served seven).answer? = some (.ok (.int 7)) := rfl
  exact (survives_iff talks_seven hanswer).mpr (.inl ⟨_, rfl⟩)

open Recovering in
/-- An error does not give the restart back: the next request is given up after a single failure. -/
theorem boom_not_survives :
    Talks (worker boom) settings ([lost] ++ [served boom]) (heard boom) ∧
    (served boom).answer? = some (.error ⟨-32000, "boom"⟩) ∧
    ((heard boom).requestAs (worker boom) some "load" .null).1 = .error .exited ∧
    ((heard boom).attemptsOf (worker boom) "load" .null).length = 1 ∧
    ¬ (heard boom).Survives settings.maxRestarts := by
  refine ⟨talks_boom, rfl, rfl, rfl, ?_⟩
  intro hsurvives
  have hcut : IsCut ((heard boom).requestAs (worker boom) some "load" .null) := ⟨rfl, .exited, rfl, rfl⟩
  have hmany : 2 ≤ 1 := (hsurvives _ _ _ _ hcut).2
  omega

end Client

end ClassSort

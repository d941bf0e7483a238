import ClassSort.Proofs.Worker.Restarts
import Mathlib.Data.List.Nodup

/-!
Whose answer a request gets. A worker may be late, answer twice, out of order or not at all; as long as
its answers carry the numbers of what it was asked, none is taken for the answer to another request.
-/

namespace ClassSort

inductive IsHonest (belongs : String → Json → Except ResponseError Json → Prop) : List Attempt → Prop where
  | nil : IsHonest belongs []
  | snoc {past x} (h : IsHonest belongs past)
      (hanswers : ∀ m id result, .message m ∈ x.output → Message.classify m = .ok (.response id result) →
        ∃ y ∈ past ++ [x], y.id = id ∧ belongs y.method y.params result) :
      IsHonest belongs (past ++ [x])

variable {belongs : String → Json → Except ResponseError Json → Prop} {past log : List Attempt}

theorem IsHonest.exists_asked (h : IsHonest belongs past) {x : Attempt} (hx : x ∈ past) {m : Json} {id : Nat}
    {result : Except ResponseError Json} (hput : .message m ∈ x.output)
    (hclass : Message.classify m = .ok (.response id result)) :
    ∃ y ∈ past, y.id = id ∧ belongs y.method y.params result := by
  induction h with
  | nil => cases hx
  | snoc h hanswers ih =>
    obtain hbefore | hlast := List.mem_append.mp hx
    · obtain ⟨y, hy, hown⟩ := ih hbefore
      exact ⟨y, List.mem_append_left _ hy, hown⟩
    · rw [List.mem_singleton] at hlast
      subst hlast
      exact hanswers m id result hput hclass

namespace Client

variable {b : Behaviour} {config : WorkerConfig} {c c' : Client} {method : String} {params : Json}
  {out : Except OracleError Json} {x y : Attempt} {result : Except ResponseError Json}

theorem Sends.asked (h : Sends b method params c log out c') :
    ∀ x ∈ log, x.method = method ∧ x.params = params := by
  induction h with
  | refused hensure => simp
  | answered hensure hanswer | exhausted hensure hnone hspent hfatal => simp
  | repeated hensure hnone hleft hrest ih => simpa using ih

/-- No number is used twice. -/
theorem Stands.eq_of_id_eq (h : Stands config past c) (hx : x ∈ past) (hy : y ∈ past) (hid : x.id = y.id) : x = y :=
  List.inj_on_of_nodup_map (h.ids.imp Nat.ne_of_lt) hx hy hid

theorem Stands.answer_origin (h : Stands config past c) (hx : x ∈ past) (hanswer : x.answer? = some result) :
    ∃ y ∈ past, y.launch = x.launch ∧
      ∃ m, .message m ∈ y.output ∧ Message.classify m = .ok (.response x.id result) := by
  obtain ⟨m, hread, hclass⟩ := Reading.exists_of_answerOf? hanswer
  obtain ⟨y, hy, hlaunch, hput⟩ := h.origin x hx _ hread
  exact ⟨y, hy, hlaunch, m, hput, hclass⟩

/-- An answer read by an attempt is the answer to what was asked with it. -/
theorem Stands.answer_belongs (h : Stands config past c) (hhonest : IsHonest belongs past) (hx : x ∈ past)
    (hanswer : x.answer? = some result) : belongs x.method x.params result := by
  obtain ⟨y, hy, -, m, hput, hclass⟩ := h.answer_origin hx hanswer
  obtain ⟨asked, hasked, hid, hbelongs⟩ := hhonest.exists_asked hy hput hclass
  rwa [h.eq_of_id_eq hasked hx hid] at hbelongs

/-- A result is the worker's answer to the last attempt, which was made for this request, and it was read
from the process that has received this attempt last, after all the others that were sent to it. -/
structure IsOwnAnswer (belongs : String → Json → Except ResponseError Json → Prop) (past log : List Attempt)
    (method : String) (params : Json) (c' : Client) (result : Except ResponseError Json) (x : Attempt)
    (p : Process) : Prop where
  last : log.getLast? = some x
  method_eq : x.method = method
  params_eq : x.params = params
  held : c'.process = some p
  launch_eq : p.launch = x.launch
  received : p.received = ((past ++ log).filter (·.launch == p.launch)).map Attempt.message
  received_last : p.received.getLast? = some x.message
  read : ∃ y ∈ past ++ log, y.launch = p.launch ∧
    ∃ m, .message m ∈ y.output ∧ Message.classify m = .ok (.response x.id result)
  belongs : belongs method params result

theorem Ends.exists_last (h : Ends b c log c' (ResponseError.reported result)) :
    ∃ x p, log.getLast? = some x ∧ x.answer? = some result ∧ c'.process = some p ∧ p.launch = x.launch ∧
      p.received.getLast? = some x.message := by
  generalize hout : ResponseError.reported result = out at h
  cases h with
  | answered hlog hbefore hanswer hheld hlaunch hreceived =>
    obtain rfl := ResponseError.reported_injective hout
    exact ⟨_, _, by simp [hlog], hanswer, hheld, hlaunch, hreceived⟩
  | cutOff hlog hspent hheld hfatal =>
    rw [(ResponseError.isFatal_of_reported hout).1] at hfatal
    cases hfatal
  | refused hlog hspare hheld hprogram htried hreason => exact absurd rfl ((ResponseError.isFatal_of_reported hout).2 _ _)

theorem Sends.isOwnAnswer (hsends : Sends b method params c log (ResponseError.reported result) c')
    (h : Stands config past c) (hhonest : IsHonest belongs (past ++ log)) :
    ∃ x p, IsOwnAnswer belongs past log method params c' result x p := by
  have hafter := hsends.stands h
  have hends := hsends.ends h.restarts_le h.command_ne
  obtain ⟨x, p, hlast, hanswer, hheld, hlaunch, hreceived⟩ := hends.exists_last
  have hx : x ∈ log := List.mem_of_getLast? hlast
  have hmem : x ∈ past ++ log := List.mem_append_right _ hx
  obtain ⟨hmethod, hparams⟩ := hsends.asked x hx
  obtain ⟨y, hy, hsame, hread⟩ := hafter.answer_origin hmem hanswer
  have hbelongs := hafter.answer_belongs hhonest hmem hanswer
  rw [hmethod, hparams] at hbelongs
  exact ⟨x, p, {
    last := hlast
    method_eq := hmethod
    params_eq := hparams
    held := hheld
    launch_eq := hlaunch
    received := (hafter.traced p hheld).received
    received_last := hreceived
    read := ⟨y, hy, hsame.trans hlaunch.symm, hread⟩
    belongs := hbelongs }⟩

/-- Whenever a request ends with a value or with an error from the worker, it is the worker's answer to this
request, and all attempts ever made have different numbers. -/
theorem requestAs_isOwnAnswer {α : Type} (decode : Json → Option α) (method : String) (params : Json)
    (h : Talks b config past c) :
    let log := c.attemptsOf b method params
    let sent := c.requestAs b decode method params
    ((past ++ log).map Attempt.id).Pairwise (· < ·) ∧
    ∀ belongs, IsHonest belongs (past ++ log) →
      (∀ a, sent.1 = .ok a → ∃ v, decode v = some a ∧
        ∃ x p, IsOwnAnswer belongs past log method params sent.2 (.ok v) x p) ∧
      (∀ code message, sent.1 = .error (.remote code message) →
        ∃ x p, IsOwnAnswer belongs past log method params sent.2 (.error ⟨code, message⟩) x p) := by
  intro log sent
  have hsends : Sends b method params c log (c.request b method params).1 (c.request b method params).2 :=
    h.stands.request_sends
  have hsent : sent = (decoded decode (c.request b method params).1, (c.request b method params).2) :=
    requestAs_eq decode
  rw [hsent]
  refine ⟨(hsends.stands h.stands).ids, ?_⟩
  intro belongs hhonest
  constructor
  · intro a ha
    obtain ⟨v, hv, hdecode⟩ := decoded_eq_ok ha
    have hreported : (c.request b method params).1 = ResponseError.reported (.ok v) := hv
    rw [hreported] at hsends
    exact ⟨v, hdecode, hsends.isOwnAnswer h.stands hhonest⟩
  · intro code message hremote
    have hreported : (c.request b method params).1 = ResponseError.reported (.error ⟨code, message⟩) :=
      decoded_eq_remote hremote
    rw [hreported] at hsends
    exact hsends.isOwnAnswer h.stands hhonest

namespace Late

def echo (id : Nat) (n : Int) : Json := .obj [("id", .int id), ("result", .int n)]

def busy : Json := .obj [("method", .str "log")]

/-- A worker that answers each request with its parameters. Its first process does not get to it in time, and
its second makes up for this, reports in between, and answers twice. -/
def worker : Behaviour where
  refusal := fun _ => none
  output := fun launch received =>
    match launch, received with
    | 1, [_] => [.message (echo 0 5), .message busy, .message (echo 1 5)]
    | 1, [_, _] => [.message (echo 1 5), .message (echo 2 6)]
    | _, _ => []

def echoes (_ : String) (params : Json) (result : Except ResponseError Json) : Prop := result = .ok params

def lost : Attempt := ⟨0, 0, "load", .int 5, 0, [], []⟩

def found : Attempt :=
  let said := [.message (echo 0 5), .message busy, .message (echo 1 5)]
  ⟨1, 1, "load", .int 5, 1, said, said⟩

def next : Attempt :=
  let said := [.message (echo 1 5), .message (echo 2 6)]
  ⟨1, 2, "load", .int 6, 0, said, said⟩

def once : Client := (Recovering.unused.requestAs worker some "load" (.int 5)).2

theorem talks_once : Talks worker Recovering.settings ([lost] ++ [found]) once :=
  (Recovering.talks_unused worker).ask some "load" (.int 5)

theorem honest_lost : IsHonest echoes [lost] := .snoc .nil (by simp [lost])

theorem honest_found : IsHonest echoes ([lost] ++ [found]) := by
  refine .snoc honest_lost ?_
  intro m id result hput hclass
  simp only [found, List.mem_cons, Reading.message.injEq, List.not_mem_nil, or_false] at hput
  obtain rfl | rfl | rfl := hput
  · cases hclass
    exact ⟨lost, by simp, rfl, rfl⟩
  · cases hclass
  · cases hclass
    exact ⟨found, by simp, rfl, rfl⟩

theorem honest_next : IsHonest echoes ([lost] ++ [found] ++ [next]) := by
  refine .snoc honest_found ?_
  intro m id result hput hclass
  simp only [next, List.mem_cons, Reading.message.injEq, List.not_mem_nil, or_false] at hput
  obtain rfl | rfl := hput
  · cases hclass
    exact ⟨found, by simp, rfl, rfl⟩
  · cases hclass
    exact ⟨next, by simp, rfl, rfl⟩

end Late

open Late in
theorem isOwnAnswer_six : ∃ x p, IsOwnAnswer echoes ([lost] ++ [found]) [next] "load" (.int 6)
    (once.requestAs worker some "load" (.int 6)).2 (.ok (.int 6)) x p := by
  obtain ⟨-, hown⟩ := requestAs_isOwnAnswer some "load" (.int 6) talks_once
  obtain ⟨v, hv, hanswer⟩ := (hown echoes honest_next).1 (.int 6) rfl
  cases hv
  exact hanswer

end Client

end ClassSort

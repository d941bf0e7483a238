import ClassSort.Proofs.Order.Resolving
import Mathlib.Data.List.Nodup

/-!
The whole life of a resolver, seen from its context. A log beside the ranking keeps every batch with
its answer. The cache is what the answered batches of the log say, each class once: so a batch holds
what no answered batch held, a failure leaves no trace, and a class keeps its key.
-/

namespace ClassSort

variable {σ κ : Type}

structure Exchange where
  batch : List String
  answer : Except OrderError (List (String × Option OrderKey))

def Ranking.logged (o : Ranking σ κ) : Ranking (σ × List Exchange) κ where
  classOrder context batch s :=
    let (answer, t) := o.classOrder context batch s.1
    (answer, t, s.2 ++ [⟨batch, answer⟩])
  leading := o.leading
  layerStart := o.layerStart
  version := o.version

namespace Exchange

def succeeded (x : Exchange) : Bool :=
  match x.answer with
  | .ok entries => entries.length == x.batch.length
  | .error _ => false

def Says (x : Exchange) (t : String) (key : Option OrderKey) : Prop :=
  ∃ (entries : List (String × Option OrderKey)) (i : Nat) (name : String),
    x.answer = .ok entries ∧ entries.length = x.batch.length ∧
      x.batch[i]? = some t ∧ entries[i]? = some (name, key)

end Exchange

def answered (log : List Exchange) : List String := (log.filter (·.succeeded)).flatMap (·.batch)

/-- A request to a resolver, with what was sent for it. -/
structure Call (κ : Type) where
  before : Resolver κ
  tokens : List String
  sent : List Exchange
  result : Except OrderError OrderMap
  after : Resolver κ

namespace Resolver

def call (o : Ranking σ κ) (r : Resolver κ) (tokens : List String) (s : σ) : Call κ × σ :=
  let (result, after, t) := r.resolve o tokens s
  (⟨r, tokens, (r.resolve o.logged tokens (s, [])).2.2.2, result, after⟩, t)

def calls (o : Ranking σ κ) : List (List String) → Resolver κ → σ → List (Call κ)
  | [], _, _ => []
  | tokens :: requests, r, s =>
    let (call, s) := r.call o tokens s
    call :: calls o requests call.after s

end Resolver

/-- A call behind those of a log. -/
structure Call.Coherent (o : Ranking σ κ) (context : κ) (log : List Exchange) (call : Call κ) : Prop where
  single : call.sent.length ≤ 1
  silent : call.sent = [] ↔ ∀ t ∈ call.tokens, t ∈ answered log
  batch : ∀ x ∈ call.sent, x.batch ≠ [] ∧
    x.batch.Pairwise (fun a b => call.tokens.idxOf a < call.tokens.idxOf b) ∧
    ∀ t, t ∈ x.batch ↔ t ∈ call.tokens ∧ t ∉ answered log
  result : ∀ x ∈ call.sent, match x.answer with
    | .error e => call.result = .error e
    | .ok entries =>
      if entries.length = x.batch.length then ∃ orders, call.result = .ok orders
      else call.result = .error (.mismatch x.batch.length entries.length)
  remembered : call.sent = [] → ∃ orders, call.result = .ok orders
  failed : ∀ e, call.result = .error e → call.after = call.before
  reported : ∀ orders, call.result = .ok orders →
    (orders.map (·.1)).Nodup ∧ (∀ t, t ∈ orders.map (·.1) ↔ t ∈ call.tokens) ∧
    ∀ t ∈ call.tokens, ∃ x ∈ log ++ call.sent, ∃ key, x.Says t key ∧
      orders.lookup t = some (key.or (Resolver.markerKey o context t))

namespace Resolver

variable {o : Ranking σ κ} {context : κ} {log : List Exchange} {r : Resolver κ} {tokens : List String} {s : σ}

theorem distinct_order (tokens : List String) :
    (distinct tokens).Pairwise (fun a b => tokens.idxOf a < tokens.idxOf b) := by
  induction tokens with
  | nil => exact .nil
  | cons t rest ih =>
    rw [distinct, List.pairwise_cons]
    constructor
    · intro b hb
      have hne : b ≠ t := by simpa using (List.mem_filter.mp hb).2
      rw [List.idxOf_cons_self, List.idxOf_cons_ne _ hne.symm]
      exact Nat.succ_pos _
    · refine List.Pairwise.imp_of_mem ?_ (ih.filter _)
      intro a b ha hb hab
      have hat : a ≠ t := by simpa using (List.mem_filter.mp ha).2
      have hbt : b ≠ t := by simpa using (List.mem_filter.mp hb).2
      rw [List.idxOf_cons_ne _ hat.symm, List.idxOf_cons_ne _ hbt.symm]
      exact Nat.succ_lt_succ hab

theorem distinct_nodup (tokens : List String) : (distinct tokens).Nodup := by
  refine (distinct_order tokens).imp ?_
  intro a b hab heq
  rw [heq] at hab
  exact Nat.lt_irrefl _ hab

def learned (o : Ranking σ κ) (context : κ) (x : Exchange) : OrderMap :=
  match x.answer with
  | .ok entries =>
    if entries.length = x.batch.length then
      (x.batch.zip entries).map fun (t, _, key) => (t, key.or (markerKey o context t))
    else []
  | .error _ => []

theorem learned_keys (o : Ranking σ κ) (context : κ) (log : List Exchange) :
    (log.flatMap (learned o context)).map (·.1) = answered log := by
  induction log with
  | nil => rfl
  | cons x log ih =>
    have hx : (learned o context x).map (·.1) = if x.succeeded then x.batch else [] := by
      unfold learned Exchange.succeeded
      split
      · next entries _ =>
        by_cases hlen : entries.length = x.batch.length
        · simp only [hlen, if_true, List.map_map, Function.comp_def, beq_self_eq_true]
          exact List.map_fst_zip (by omega)
        · simp [hlen]
      · rfl
    rw [List.flatMap_cons, List.map_append, ih, hx, answered, answered, List.filter_cons]
    split <;> simp

theorem mem_learned {x : Exchange} {t : String} {k : Option OrderKey} :
    (t, k) ∈ learned o context x ↔ ∃ key, x.Says t key ∧ k = key.or (markerKey o context t) := by
  unfold learned Exchange.Says
  cases hanswer : x.answer with
  | error e => simp
  | ok entries =>
    by_cases hlen : entries.length = x.batch.length
    · simp only [hlen, if_true, Except.ok.injEq]
      constructor
      · intro h
        obtain ⟨⟨t', name, key⟩, hmem, heq⟩ := List.mem_map.mp h
        simp only [Prod.mk.injEq] at heq
        obtain ⟨rfl, rfl⟩ := heq
        obtain ⟨i, hi⟩ := List.mem_iff_getElem?.mp hmem
        obtain ⟨hbatch, hentry⟩ := List.getElem?_zip_eq_some.mp hi
        exact ⟨key, ⟨entries, i, name, rfl, hlen, hbatch, hentry⟩, rfl⟩
      · rintro ⟨key, ⟨entries', i, name, rfl, -, hbatch, hentry⟩, rfl⟩
        refine List.mem_map.mpr ⟨(t, name, key), ?_, rfl⟩
        exact List.mem_iff_getElem?.mpr ⟨i, List.getElem?_zip_eq_some.mpr ⟨hbatch, hentry⟩⟩
    · simp only [hlen, if_false]
      constructor
      · intro h
        cases h
      · rintro ⟨key, ⟨entries', i, name, heq, hlen', -⟩, -⟩
        cases heq
        exact absurd hlen' hlen

/-- The cache holds what the log says, each class once. -/
structure Remembers (o : Ranking σ κ) (context : κ) (log : List Exchange) (r : Resolver κ) : Prop where
  owner : r.context = context
  cache : r.cache = log.flatMap (learned o context)
  once : (answered log).Nodup

theorem Remembers.new (o : Ranking σ κ) (context : κ) : Remembers o context [] (.new context) :=
  ⟨rfl, rfl, .nil⟩

theorem Remembers.knows_iff (h : Remembers o context log r) {t : String} :
    r.Knows t ↔ t ∈ answered log := by
  rw [Knows, h.cache, List.lookup_isSome_iff, ← learned_keys o context, List.mem_map]
  constructor
  · rintro ⟨p, hp, heq⟩
    exact ⟨p, hp, (by simpa using heq : t = p.1).symm⟩
  · rintro ⟨p, hp, rfl⟩
    exact ⟨p, hp, beq_self_eq_true _⟩

inductive CallOutcome (o : Ranking σ κ) (r : Resolver κ) (tokens : List String) : Call κ → Prop where
  | remembered : r.missing tokens = [] → CallOutcome o r tokens ⟨r, tokens, [], .ok (r.answers tokens), r⟩
  | failed (e) : r.missing tokens ≠ [] →
      CallOutcome o r tokens ⟨r, tokens, [⟨r.missing tokens, .error e⟩], .error e, r⟩
  | mismatch (entries) : r.missing tokens ≠ [] → entries.length ≠ (r.missing tokens).length →
      CallOutcome o r tokens ⟨r, tokens, [⟨r.missing tokens, .ok entries⟩],
        .error (.mismatch (r.missing tokens).length entries.length), r⟩
  | learned (entries) : r.missing tokens ≠ [] → entries.length = (r.missing tokens).length →
      CallOutcome o r tokens ⟨r, tokens, [⟨r.missing tokens, .ok entries⟩],
        .ok ((r.learn o (r.missing tokens) entries).answers tokens), r.learn o (r.missing tokens) entries⟩

theorem sent_eq (o : Ranking σ κ) (r : Resolver κ) (tokens : List String) (s : σ) :
    (r.resolve o.logged tokens (s, [])).2.2.2 = if r.missing tokens = [] then []
      else [⟨r.missing tokens, (o.classOrder r.context (r.missing tokens) s).1⟩] := by
  have hlog : ∀ answer t, o.logged.classOrder r.context (r.missing tokens) (s, []) = (answer, t) →
      t.2 = [⟨r.missing tokens, (o.classOrder r.context (r.missing tokens) s).1⟩] := by
    intro answer t h
    cases h
    rfl
  have hout := resolve_outcome o.logged r tokens (s, [])
  generalize r.resolve o.logged tokens (s, []) = outcome at hout
  cases hout with
  | remembered hnone => rw [if_pos hnone]
  | failed e t hne hanswer => rw [if_neg hne, hlog _ _ hanswer]
  | mismatch entries t hne hanswer => rw [if_neg hne, hlog _ _ hanswer]
  | learned entries t hne hanswer => rw [if_neg hne, hlog _ _ hanswer]

theorem call_outcome (o : Ranking σ κ) (r : Resolver κ) (tokens : List String) (s : σ) :
    CallOutcome o r tokens (r.call o tokens s).1 := by
  have hout := resolve_outcome o r tokens s
  unfold call
  rw [sent_eq]
  generalize r.resolve o tokens s = outcome at hout
  cases hout with
  | remembered hnone =>
    rw [if_pos hnone]
    exact .remembered hnone
  | failed e t hne hanswer =>
    rw [if_neg hne, hanswer]
    exact .failed e hne
  | mismatch entries t hne hanswer hlen =>
    rw [if_neg hne, hanswer]
    exact .mismatch entries hne hlen
  | learned entries t hne hanswer hlen =>
    rw [if_neg hne, hanswer]
    exact .learned entries hne hlen

theorem Remembers.mem_missing (h : Remembers o context log r) {t : String} :
    t ∈ r.missing tokens ↔ t ∈ tokens ∧ t ∉ answered log := by
  rw [Resolver.mem_missing, h.knows_iff]

theorem Remembers.missing_eq_nil (h : Remembers o context log r) :
    r.missing tokens = [] ↔ ∀ t ∈ tokens, t ∈ answered log := by
  rw [Resolver.missing_eq_nil]
  simp only [h.knows_iff]

theorem missing_order (r : Resolver κ) (tokens : List String) :
    (r.missing tokens).Pairwise (fun a b => tokens.idxOf a < tokens.idxOf b) :=
  (distinct_order tokens).filter _

theorem answered_append (log sent : List Exchange) :
    answered (log ++ sent) = answered log ++ answered sent := by
  simp [answered]

/-- What a batch failed to teach is not remembered. -/
theorem Remembers.skip (h : Remembers o context log r) {x : Exchange} (hx : x.succeeded = false) :
    Remembers o context (log ++ [x]) r := by
  have hnothing : answered [x] = [] := by simp [answered, hx]
  have hkeys : (learned o context x).map (·.1) = [] := by
    rw [← hnothing, ← learned_keys o context]
    simp
  constructor
  · exact h.owner
  · rw [h.cache, List.flatMap_append, List.flatMap_singleton, List.map_eq_nil_iff.mp hkeys, List.append_nil]
  · rw [answered_append, hnothing, List.append_nil]
    exact h.once

theorem Remembers.learn (h : Remembers o context log r) {entries : List (String × Option OrderKey)}
    (hlen : entries.length = (r.missing tokens).length) :
    Remembers o context (log ++ [⟨r.missing tokens, .ok entries⟩]) (r.learn o (r.missing tokens) entries) := by
  have hanswered : answered [⟨r.missing tokens, .ok entries⟩] = r.missing tokens := by
    simp [answered, Exchange.succeeded, hlen]
  constructor
  · exact h.owner
  · rw [List.flatMap_append, List.flatMap_singleton, ← h.cache, ← h.owner]
    simp only [learned, hlen, if_true]
    rfl
  · rw [answered_append, hanswered, List.nodup_append]
    refine ⟨h.once, (distinct_nodup tokens).filter _, ?_⟩
    intro t ht t' ht' heq
    rw [heq] at ht
    exact (h.mem_missing.mp ht').2 ht

/-- One call keeps what is remembered in step with the log. -/
theorem Remembers.step (h : Remembers o context log r) (tokens : List String) (s : σ) :
    Remembers o context (log ++ (r.call o tokens s).1.sent) (r.call o tokens s).1.after := by
  have hout := call_outcome o r tokens s
  generalize (r.call o tokens s).1 = call at hout
  cases hout with
  | remembered hnone => simpa using h
  | failed e hne => exact h.skip rfl
  | mismatch entries hne hlen => exact h.skip (by simpa [Exchange.succeeded] using hlen)
  | learned entries hne hlen => exact h.learn hlen

/-- What is reported from memory was said in the log. -/
theorem Remembers.reported (h : Remembers o context log r) (hall : ∀ t ∈ tokens, t ∈ answered log) :
    ((r.answers tokens).map (·.1)).Nodup ∧ (∀ t, t ∈ (r.answers tokens).map (·.1) ↔ t ∈ tokens) ∧
    ∀ t ∈ tokens, ∃ x ∈ log, ∃ key, x.Says t key ∧
      (r.answers tokens).lookup t = some (key.or (markerKey o context t)) := by
  have hkeys : (r.answers tokens).map (·.1) = distinct tokens := by simp [answers, Function.comp_def]
  rw [hkeys]
  refine ⟨distinct_nodup tokens, fun t => mem_distinct, ?_⟩
  intro t ht
  obtain ⟨k, hk⟩ := Option.isSome_iff_exists.mp (h.knows_iff.mpr (hall t ht))
  have hmem : (t, k) ∈ log.flatMap (learned o context) := by
    rw [← h.cache]
    obtain ⟨before, behind, hsplit, -⟩ := List.lookup_eq_some_iff.mp hk
    rw [hsplit]
    simp
  obtain ⟨x, hx, hlearned⟩ := List.mem_flatMap.mp hmem
  obtain ⟨key, hsays, rfl⟩ := mem_learned.mp hlearned
  refine ⟨x, hx, key, hsays, ?_⟩
  rw [answers, lookup_table, if_pos (mem_distinct.mpr ht), OrderMap.key?, hk]
  rfl

theorem Remembers.coherent (h : Remembers o context log r) (tokens : List String) (s : σ) :
    (r.call o tokens s).1.Coherent o context log := by
  have hafter := h.step tokens s
  have hout := call_outcome o r tokens s
  have hbatch : r.missing tokens ≠ [] → r.missing tokens ≠ [] ∧
      (r.missing tokens).Pairwise (fun a b => tokens.idxOf a < tokens.idxOf b) ∧
      ∀ t, t ∈ r.missing tokens ↔ t ∈ tokens ∧ t ∉ answered log :=
    fun hne => ⟨hne, missing_order r tokens, fun t => h.mem_missing⟩
  have hasked : r.missing tokens ≠ [] → ¬ ∀ t ∈ tokens, t ∈ answered log := mt h.missing_eq_nil.mpr
  generalize (r.call o tokens s).1 = call at hout hafter
  cases hout with
  | remembered hnone =>
    have hall := h.missing_eq_nil.mp hnone
    constructor
    · simp
    · simpa using hall
    · simp
    · simp
    · exact fun _ => ⟨_, rfl⟩
    · simp
    · intro orders horders
      cases horders
      simpa using h.reported hall
  | failed e hne =>
    constructor
    · simp
    · simpa using hasked hne
    · simpa using hbatch hne
    · simp
    · simp
    · simp
    · simp
  | mismatch entries hne hlen =>
    constructor
    · simp
    · simpa using hasked hne
    · simpa using hbatch hne
    · simp [hlen]
    · simp
    · simp
    · simp
  | learned entries hne hlen =>
    constructor
    · simp
    · simpa using hasked hne
    · simpa using hbatch hne
    · simp [hlen]
    · simp
    · simp
    · intro orders horders
      cases horders
      refine hafter.reported ?_
      intro t ht
      rw [← hafter.knows_iff]
      by_cases hk : r.Knows t
      · obtain ⟨k, hk⟩ := Option.isSome_iff_exists.mp hk
        exact Option.isSome_iff_exists.mpr ⟨k, lookup_learn o r _ _ hk⟩
      · exact knows_learn hlen (Resolver.mem_missing.mpr ⟨ht, hk⟩)

/-- Every call of a run is coherent with the calls before it. -/
theorem Remembers.run (h : Remembers o context log r) (requests : List (List String)) (s : σ) :
    (answered (log ++ (calls o requests r s).flatMap (·.sent))).Nodup ∧
    ∀ past call future, calls o requests r s = past ++ call :: future →
      call.Coherent o context (log ++ past.flatMap (·.sent)) := by
  induction requests generalizing log r s with
  | nil =>
    constructor
    · simpa [calls] using h.once
    · intro past call future hsplit
      simp [calls] at hsplit
  | cons tokens requests ih =>
    obtain ⟨honce, hlater⟩ := ih (h.step tokens s) (r.call o tokens s).2
    constructor
    · simpa [calls] using honce
    · intro past call future hsplit
      cases past with
      | nil =>
        obtain ⟨hcall, -⟩ := List.cons.inj hsplit
        rw [← hcall, List.flatMap_nil, List.append_nil]
        exact h.coherent tokens s
      | cons first past =>
        obtain ⟨hfirst, hrest⟩ := List.cons.inj hsplit
        rw [← hfirst, List.flatMap_cons, ← List.append_assoc]
        exact hlater past call future hrest

end Resolver

end ClassSort

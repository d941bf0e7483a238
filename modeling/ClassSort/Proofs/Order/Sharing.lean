import ClassSort.Proofs.Order.Serving

/-!
Requests to one service, their two steps interleaved in any way, with a clock that does not run
backwards from one second step to the next. The cache is what was built, seen through the clock: a
resolver is handed to every request for its identity for as long as it lives, the factory is asked
only where none lives, and what fails takes nothing away from the others.
-/

namespace ClassSort

def ConfigIdentity.content : ConfigIdentity → (List Component × Nat) ⊕ String
  | file path modified => .inl (path.components, modified)
  | inline text => .inr text

theorem ConfigIdentity.beq_iff (a b : ConfigIdentity) : (a == b) = true ↔ a.content = b.content := by
  change same a b = true ↔ _
  cases a <;> cases b <;> simp [same, Path.same, content]

instance : EquivBEq ConfigIdentity where
  rfl {a} := (a.beq_iff a).mpr rfl
  symm {a b} h := (b.beq_iff a).mpr ((a.beq_iff b).mp h).symm
  trans {a b c} h k := (a.beq_iff c).mpr (((a.beq_iff b).mp h).trans ((b.beq_iff c).mp k))

variable {σ κ : Type}

structure Creation (κ : Type) where
  config : ResolvedConfig
  answer : Except OrderError κ

def Oracle.logged (o : Oracle σ κ) : Oracle (σ × List (Creation κ)) κ where
  classOrder context batch s :=
    let (answer, t) := o.classOrder context batch s.1
    (answer, t, s.2)
  leading := o.leading
  layerStart := o.layerStart
  version := o.version
  create files config s :=
    let (answer, t) := o.create files config s.1
    (answer, t, s.2 ++ [⟨config, answer⟩])

@[simp] theorem Oracle.logged_version (o : Oracle σ κ) (context : κ) :
    o.logged.version context = o.version context := rfl

@[simp] theorem Oracle.logged_create (o : Oracle σ κ) (files : FileTree) (config : ResolvedConfig) (s : σ)
    (log : List (Creation κ)) : o.logged.create files config (s, log) =
      ((o.create files config s).1, (o.create files config s).2,
        log ++ [⟨config, (o.create files config s).1⟩]) := rfl

namespace Service

/-- A second step that was taken: when, for which configuration, what the factory was asked
meanwhile, and what it came to. -/
structure Turn (κ : Type) where
  config : ResolvedConfig
  now : Nat
  calls : List (Creation κ)
  result : Except OrderError Nat

def Turn.Builds (t : Turn κ) (context : κ) (id : Nat) : Prop :=
  t.calls = [⟨t.config, .ok context⟩] ∧ t.result = .ok id

def turn (o : Oracle σ κ) (service : Service κ) (files : FileTree) (monorepo : Bool)
    (config : ResolvedConfig) (now : Nat) (s : σ) : Turn κ × Service κ :=
  let (result, served, _, calls) := service.context o.logged files monorepo config now (s, [])
  (⟨config, now, calls, result⟩, served)

section Turn

variable (o : Oracle σ κ) (service : Service κ) (files : FileTree) (monorepo : Bool)
  (config : ResolvedConfig) (now : Nat) (s : σ)

theorem create_logged (log : List (Creation κ)) : create o.logged files monorepo config (s, log) =
    ((create o files monorepo config s).1, (create o files monorepo config s).2,
      log ++ [⟨config, (o.create files config s).1⟩]) := by
  simp only [create, Oracle.logged_create, Oracle.logged_version]
  obtain ⟨_ | context, t⟩ := o.create files config s
  · rfl
  · dsimp only
    cases o.version context with
    | none => rfl
    | some v =>
      dsimp only
      split <;> rfl

/-- The log changes nothing. -/
theorem turn_context : (service.turn o files monorepo config now s).1.result =
      (service.context o files monorepo config now s).1 ∧
    (service.turn o files monorepo config now s).2 =
      (service.context o files monorepo config now s).2.1 := by
  unfold turn context
  obtain ⟨_ | id, contexts⟩ := service.contexts.get config.identity now
  · dsimp only
    rw [create_logged]
    obtain ⟨_ | context, t⟩ := create o files monorepo config s <;> exact ⟨rfl, rfl⟩
  · exact ⟨rfl, rfl⟩

inductive Took : Turn κ × Service κ → Prop where
  | shared (id contexts) : service.contexts.get config.identity now = (some id, contexts) →
      Took (⟨config, now, [], .ok id⟩, { service with contexts })
  | failed (contexts answer e) : service.contexts.get config.identity now = (none, contexts) →
      Took (⟨config, now, [⟨config, answer⟩], .error e⟩, { service with contexts })
  | built (contexts context) : service.contexts.get config.identity now = (none, contexts) →
      Took (⟨config, now, [⟨config, .ok context⟩], .ok service.resolvers.length⟩,
        { service with
          contexts := (contexts.purge now).insert config.identity service.resolvers.length now
          resolvers := service.resolvers ++ [.new context] })

theorem turn_took : Took service config now (service.turn o files monorepo config now s) := by
  have hout := context_outcome o.logged service files monorepo config now (s, [])
  unfold turn
  generalize service.context o.logged files monorepo config now (s, []) = outcome at hout
  unfold Oracle.logged at hout
  cases hout with
  | found id contexts hget => exact .shared id contexts hget
  | failed contexts e t hget hcreate =>
    obtain ⟨hanswer, rfl⟩ := Prod.mk.inj hcreate
    exact .failed contexts _ e hget
  | refused contexts context v t hget hcreate =>
    obtain ⟨hanswer, rfl⟩ := Prod.mk.inj hcreate
    exact .failed contexts _ _ hget
  | made contexts context t hget hcreate =>
    obtain ⟨hanswer, rfl⟩ := Prod.mk.inj hcreate
    dsimp only at hanswer ⊢
    rw [hanswer]
    exact .built contexts context hget

end Turn

/-- Requests in any interleaving: those whose configuration is resolved and that wait for their
second step, the turns taken so far, and the service behind them. -/
inductive Interleaves (o : Oracle σ κ) (refresh ttl : Nat) :
    List (ConfigRequest × ResolvedConfig) → List (Turn κ) → Service κ → Prop where
  | new : Interleaves o refresh ttl [] [] (.new refresh ttl)
  | resolved {waiting past service} (files request now config) : Interleaves o refresh ttl waiting past service →
      (service.config files request now).1 = .ok config →
      Interleaves o refresh ttl (waiting ++ [(request, config)]) past (service.config files request now).2
  | unresolved {waiting past service} (files request now e) : Interleaves o refresh ttl waiting past service →
      (service.config files request now).1 = .error e →
      Interleaves o refresh ttl waiting past (service.config files request now).2
  | turn {before request config after past service} (files now s) :
      Interleaves o refresh ttl (before ++ (request, config) :: after) past service →
      (∀ t ∈ past, t.now ≤ now) →
      Interleaves o refresh ttl (before ++ after)
        (past ++ [(service.turn o files request.monorepo config now s).1])
        (service.turn o files request.monorepo config now s).2
  | use {waiting past service} (id tokens s) : Interleaves o refresh ttl waiting past service →
      Interleaves o refresh ttl waiting past
        (service.onResolver id (.ok []) (fun r s => r.resolve o.toRanking tokens s) s).2.1

def Turn.insertion? (t : Turn κ) : Option (ConfigIdentity × Nat × Nat) :=
  match t.calls, t.result with
  | _ :: _, .ok id => some (t.config.identity, t.now, id)
  | _, _ => none

def insertions (past : List (Turn κ)) : List (ConfigIdentity × Nat × Nat) :=
  past.reverse.filterMap Turn.insertion?

theorem insertions_append (past later : List (Turn κ)) :
    insertions (past ++ later) = insertions later ++ insertions past := by
  simp [insertions]

theorem insertions_concat (past : List (Turn κ)) (t : Turn κ) :
    insertions (past ++ [t]) = t.insertion?.toList ++ insertions past := by
  rw [insertions_append]
  cases h : t.insertion? <;> simp [insertions, h]

theorem Turn.insertion?_eq_some {t : Turn κ} {e : ConfigIdentity × Nat × Nat} (h : t.insertion? = some e) :
    t.calls ≠ [] ∧ t.result = .ok e.2.2 ∧ e.1 = t.config.identity ∧ e.2.1 = t.now := by
  unfold insertion? at h
  split at h
  · next call calls id hcalls hresult =>
    cases h
    exact ⟨hcalls ▸ List.cons_ne_nil call calls, hresult, rfl, rfl⟩
  · cases h

theorem Turn.Builds.insertion {t : Turn κ} {context : κ} {id : Nat} (h : t.Builds context id) :
    t.insertion? = some (t.config.identity, t.now, id) := by
  unfold insertion?
  rw [h.1, h.2]

structure Shares (ttl : Nat) (past : List (Turn κ)) (service : Service κ) : Prop where
  lifetime : service.contexts.ttl = ttl
  follows : ∀ clock, (∀ t ∈ past, t.now ≤ clock) → service.contexts.Follows (insertions past) clock
  made : ∀ t ∈ past, ∀ context id, t.Builds context id → service.made[id]? = some context
  builds : ∀ t ∈ past, t.calls ≠ [] → ∀ id, t.result = .ok id → ∃ context, t.Builds context id
  /-- While a resolver lives the factory is not asked for its identity again. -/
  spaced : past.Pairwise fun t u => ∀ context id, t.Builds context id →
    (u.config.identity == t.config.identity) = true → u.calls ≠ [] → ttl ≤ u.now - t.now

variable {o : Oracle σ κ} {refresh ttl : Nat} {waiting : List (ConfigRequest × ResolvedConfig)}
  {past : List (Turn κ)} {service : Service κ}

/-- A resolver for this identity was built and handed out less than its lifetime ago. -/
def Lives (ttl : Nat) (past : List (Turn κ)) (key : ConfigIdentity) (now : Nat) (context : κ) (id : Nat) : Prop :=
  ∃ t ∈ past, t.Builds context id ∧ (key == t.config.identity) = true ∧ now - t.now < ttl

/-- A live build is the last one of its identity. -/
theorem Shares.get_of_lives (h : Shares ttl past service) {key : ConfigIdentity} {now : Nat}
    (hnow : ∀ u ∈ past, u.now ≤ now) {context : κ} {id : Nat} (hlives : Lives ttl past key now context id) :
    (service.contexts.get key now).1 = some id := by
  obtain ⟨t, ht, hbuilds, hkey, hlive⟩ := hlives
  rw [(h.follows now hnow).get_iff (Nat.le_refl now), h.lifetime]
  refine ⟨t.now, ?_, hlive⟩
  obtain ⟨before, after, rfl⟩ := List.append_of_mem ht
  have hafter : (insertions after).lookup key = none := by
    rw [List.lookup_eq_none_iff]
    intro e he
    obtain ⟨u, hu, hinsertion⟩ := List.mem_filterMap.mp he
    rw [List.mem_reverse] at hu
    obtain ⟨hcalls, -, hidentity, -⟩ := Turn.insertion?_eq_some hinsertion
    rw [hidentity, bne, Bool.not_eq_true']
    cases hsame : key == u.config.identity with
    | false => rfl
    | true =>
      have hidentities : (u.config.identity == t.config.identity) = true :=
        (BEq.congr_left hsame).symm.trans hkey
      have hspaced := (List.pairwise_cons.mp (List.pairwise_append.mp h.spaced).2.1).1 u hu context id
        hbuilds hidentities hcalls
      have hle := hnow u (List.mem_append_right _ (List.mem_cons_of_mem _ hu))
      omega
  rw [← List.singleton_append, ← List.append_assoc, insertions_append, List.lookup_append, hafter,
    insertions_concat, hbuilds.insertion]
  simp [List.lookup_cons, hkey]

theorem Shares.lives_of_get (h : Shares ttl past service) {key : ConfigIdentity} {now : Nat}
    (hnow : ∀ u ∈ past, u.now ≤ now) {id : Nat} (hget : (service.contexts.get key now).1 = some id) :
    ∃ context, service.made[id]? = some context ∧ Lives ttl past key now context id := by
  rw [(h.follows now hnow).get_iff (Nat.le_refl now), h.lifetime] at hget
  obtain ⟨since, hlookup, hlive⟩ := hget
  obtain ⟨key', hmem, hkey⟩ := Expiring.exists_of_lookup hlookup
  obtain ⟨t, ht, hinsertion⟩ := List.mem_filterMap.mp hmem
  rw [List.mem_reverse] at ht
  obtain ⟨hcalls, hresult, rfl, rfl⟩ := Turn.insertion?_eq_some hinsertion
  obtain ⟨context, hbuilds⟩ := h.builds t ht hcalls id hresult
  exact ⟨context, h.made t ht context id hbuilds, t, ht, hbuilds, hkey, hlive⟩

/-- A turn keeps this up if the factory was asked for nothing that lived. -/
theorem Shares.extend (h : Shares ttl past service) {t : Turn κ} {served : Service κ}
    (hlifetime : served.contexts.ttl = ttl)
    (hfollows : served.contexts.Follows (insertions (past ++ [t])) t.now)
    (hmade : ∀ (id : Nat) context, service.made[id]? = some context → served.made[id]? = some context)
    (hbuilt : ∀ (id : Nat), t.calls ≠ [] → t.result = .ok id →
      ∃ context, t.Builds context id ∧ served.made[id]? = some context)
    (hasked : t.calls ≠ [] → ∀ context id, ¬ Lives ttl past t.config.identity t.now context id) :
    Shares ttl (past ++ [t]) served := by
  constructor
  · exact hlifetime
  · intro clock hclock
    exact hfollows.later (hclock t (List.mem_append_right _ List.mem_cons_self))
  · intro u hu context id hbuilds
    rcases List.mem_append.mp hu with hu | hu
    · exact hmade id context (h.made u hu context id hbuilds)
    · obtain rfl := List.mem_singleton.mp hu
      obtain ⟨context', hbuilds', hmade'⟩ := hbuilt id (by simp [hbuilds.1]) hbuilds.2
      have hsame : context' = context := by simpa [hbuilds.1] using hbuilds'.1.symm
      rwa [hsame] at hmade'
  · intro u hu hcalls id hresult
    rcases List.mem_append.mp hu with hu | hu
    · exact h.builds u hu hcalls id hresult
    · obtain rfl := List.mem_singleton.mp hu
      obtain ⟨context, hbuilds, -⟩ := hbuilt id hcalls hresult
      exact ⟨context, hbuilds⟩
  · refine List.pairwise_append.mpr ⟨h.spaced, List.pairwise_singleton _ _, ?_⟩
    intro u hu v hv context id hbuilds hsame hcalls
    obtain rfl := List.mem_singleton.mp hv
    by_cases hlive : v.now - u.now < ttl
    · exact absurd ⟨u, hu, hbuilds, hsame, hlive⟩ (hasked hcalls context id)
    · omega

theorem Shares.none_lives (h : Shares ttl past service) {key : ConfigIdentity} {now : Nat}
    (hnow : ∀ u ∈ past, u.now ≤ now) (hget : (service.contexts.get key now).1 = none) (context : κ) (id : Nat) :
    ¬ Lives ttl past key now context id := by
  intro hlives
  rw [h.get_of_lives hnow hlives] at hget
  cases hget

theorem Shares.took (h : Shares ttl past service) {config : ResolvedConfig} {now : Nat}
    (hnow : ∀ u ∈ past, u.now ≤ now) {t : Turn κ} {served : Service κ}
    (htook : Took service config now (t, served)) : Shares ttl (past ++ [t]) served := by
  have hfollows := h.follows now hnow
  cases htook with
  | shared id contexts hget =>
    have hcontexts : (service.contexts.get config.identity now).2 = contexts := by rw [hget]
    apply h.extend
    · rw [← hcontexts, Expiring.get_ttl, h.lifetime]
    · rw [insertions_concat, ← hcontexts]
      exact hfollows.get (Nat.le_refl now)
    · exact fun _ _ hmade => hmade
    · exact fun _ hcalls => absurd rfl hcalls
    · exact fun hcalls => absurd rfl hcalls
  | failed contexts answer e hget =>
    have hcontexts : (service.contexts.get config.identity now).2 = contexts := by rw [hget]
    apply h.extend
    · rw [← hcontexts, Expiring.get_ttl, h.lifetime]
    · rw [insertions_concat, ← hcontexts]
      exact hfollows.get (Nat.le_refl now)
    · exact fun _ _ hmade => hmade
    · rintro id - ⟨⟩
    · exact fun _ => h.none_lives hnow (by rw [hget])
  | built contexts context hget =>
    have hcontexts : (service.contexts.get config.identity now).2 = contexts := by rw [hget]
    have hmade : (service.resolvers ++ [Resolver.new context]).map Resolver.context =
        service.made ++ [context] := by
      simp [Service.made, Resolver.new]
    apply h.extend
    · rw [← hcontexts]
      exact Expiring.get_ttl.trans h.lifetime
    · rw [insertions_concat, ← hcontexts]
      exact ((hfollows.get (Nat.le_refl now)).purge (Nat.le_refl now)).insert
    · intro id other hother
      obtain ⟨hlt, -⟩ := List.getElem?_eq_some_iff.mp hother
      rw [Service.made, hmade, List.getElem?_append_left hlt]
      exact hother
    · rintro id - ⟨⟩
      refine ⟨context, ⟨rfl, rfl⟩, ?_⟩
      rw [Service.made, hmade]
      simp [Service.made]
    · exact fun _ => h.none_lives hnow (by rw [hget])

/-- What is kept beside the cache does not matter. -/
theorem Shares.of_same (h : Shares ttl past service) {served : Service κ}
    (hcontexts : served.contexts = service.contexts) (hmade : served.made = service.made) :
    Shares ttl past served := by
  constructor
  · rw [hcontexts]
    exact h.lifetime
  · rw [hcontexts]
    exact h.follows
  · rw [hmade]
    exact h.made
  · exact h.builds
  · exact h.spaced

theorem Shares.config (h : Shares ttl past service) (files : FileTree) (request : ConfigRequest) (now : Nat) :
    Shares ttl past (service.config files request now).2 := by
  obtain ⟨hcontexts, hresolvers⟩ := config_keeps service files request now
  apply h.of_same hcontexts
  rw [Service.made, hresolvers, Service.made]

theorem Interleaves.shares (h : Interleaves o refresh ttl waiting past service) : Shares ttl past service := by
  induction h with
  | new =>
    constructor
    · rfl
    · exact fun clock _ => (Expiring.follows_empty ttl).later (Nat.zero_le clock)
    · intro t ht
      cases ht
    · intro t ht
      cases ht
    · exact .nil
  | resolved files request now config _ _ ih => exact ih.config files request now
  | unresolved files request now e _ _ ih => exact ih.config files request now
  | @turn before request config after past service files now s _ hnow ih =>
    exact ih.took hnow (turn_took o service files request.monorepo config now s)
  | @use waiting past service id tokens s _ ih =>
    obtain ⟨hcontexts, hmade⟩ := onResolver_keeps service id (.ok [])
      (fun r s => r.resolve o.toRanking tokens s) (fun r s => Resolver.resolve_context) s
    exact ih.of_same hcontexts hmade

section Turn

variable {config : ResolvedConfig} {now : Nat} {t : Turn κ} {served : Service κ}

theorem Shares.answered (h : Shares ttl past service) (hnow : ∀ u ∈ past, u.now ≤ now)
    (htook : Took service config now (t, served)) {id : Nat} (hresult : t.result = .ok id) :
    ∃ context, served.made[id]? = some context ∧
      (t.Builds context id ∨ t.calls = [] ∧ Lives ttl past config.identity now context id) := by
  have hafter := h.took hnow htook
  cases htook with
  | failed contexts answer e hget => cases hresult
  | built contexts context hget =>
    cases hresult
    have hbuilds : Turn.Builds ⟨config, now, [⟨config, .ok context⟩], .ok service.resolvers.length⟩
        context service.resolvers.length := ⟨rfl, rfl⟩
    exact ⟨context, hafter.made _ (List.mem_append_right _ List.mem_cons_self) context _ hbuilds, .inl hbuilds⟩
  | shared id contexts hget =>
    cases hresult
    obtain ⟨context, hmade, hlives⟩ := h.lives_of_get hnow (show _ = some id by rw [hget])
    exact ⟨context, hmade, .inr ⟨rfl, hlives⟩⟩

theorem Shares.asked (h : Shares ttl past service) (hnow : ∀ u ∈ past, u.now ≤ now)
    (htook : Took service config now (t, served)) (hcalls : t.calls ≠ []) :
    (∃ answer, t.calls = [⟨config, answer⟩]) ∧
      ∀ context id, ¬ Lives ttl past config.identity now context id := by
  cases htook with
  | shared id contexts hget => exact absurd rfl hcalls
  | failed contexts answer e hget => exact ⟨⟨answer, rfl⟩, h.none_lives hnow (by rw [hget])⟩
  | built contexts context hget => exact ⟨⟨.ok context, rfl⟩, h.none_lives hnow (by rw [hget])⟩

theorem Shares.served_of_lives (h : Shares ttl past service) (hnow : ∀ u ∈ past, u.now ≤ now)
    (htook : Took service config now (t, served)) {context : κ} {id : Nat}
    (hlives : Lives ttl past config.identity now context id) :
    t.result = .ok id ∧ t.calls = [] ∧ served.made[id]? = some context := by
  have hfound := h.get_of_lives hnow hlives
  cases htook with
  | failed contexts answer e hget =>
    rw [hget] at hfound
    cases hfound
  | built contexts context hget =>
    rw [hget] at hfound
    cases hfound
  | shared found contexts hget =>
    rw [hget] at hfound
    cases hfound
    obtain ⟨u, hu, hbuilds, -⟩ := hlives
    exact ⟨rfl, rfl, h.made u hu context id hbuilds⟩

/-- A failing turn leaves all lookups as they were. -/
theorem Shares.get_of_failed (h : Shares ttl past service) (hnow : ∀ u ∈ past, u.now ≤ now)
    (htook : Took service config now (t, served)) {e : OrderError} (hfailed : t.result = .error e) :
    served.made = service.made ∧ ∀ key later, now ≤ later →
      (served.contexts.get key later).1 = (service.contexts.get key later).1 := by
  cases htook with
  | shared id contexts hget => cases hfailed
  | built contexts context hget => cases hfailed
  | failed contexts answer e hget =>
    have hcontexts : (service.contexts.get config.identity now).2 = contexts := by rw [hget]
    refine ⟨rfl, fun key later hlater => ?_⟩
    have hbefore := h.follows now hnow
    have hafter : contexts.Follows (insertions past) now := by
      rw [← hcontexts]
      exact hbefore.get (Nat.le_refl now)
    apply Option.ext
    intro id
    rw [hafter.get_iff hlater, hbefore.get_iff hlater, ← hcontexts, Expiring.get_ttl]

end Turn

/-- Whoever waits for his context at a time that is not before the last turn gets the live resolver of his
identity. The factory is asked, once, if there is none. Where a request fails, for its configuration or
for its context, nothing that lives is lost. -/
theorem turn_shares {before after : List (ConfigRequest × ResolvedConfig)} {request : ConfigRequest}
    {config : ResolvedConfig} (h : Interleaves o refresh ttl (before ++ (request, config) :: after) past service)
    (files : FileTree) (now : Nat) (s : σ) (hnow : ∀ u ∈ past, u.now ≤ now) :
    let t := (service.turn o files request.monorepo config now s).1
    let served := (service.turn o files request.monorepo config now s).2
    (t.result, served) = ((service.context o files request.monorepo config now s).1,
      (service.context o files request.monorepo config now s).2.1) ∧
    (∀ id, t.result = .ok id → ∃ context, served.made[id]? = some context ∧
      (t.Builds context id ∨ t.calls = [] ∧ Lives ttl past config.identity now context id)) ∧
    (t.calls ≠ [] → (∃ answer, t.calls = [⟨config, answer⟩]) ∧
      ∀ context id, ¬ Lives ttl past config.identity now context id) ∧
    (∀ context id, Lives ttl past config.identity now context id →
      t.result = .ok id ∧ t.calls = [] ∧ served.made[id]? = some context) ∧
    (∀ e, t.result = .error e → served.made = service.made ∧ ∀ key later, now ≤ later →
      (served.contexts.get key later).1 = (service.contexts.get key later).1) ∧
    (∀ files request now e, (service.config files request now).1 = .error e →
      (service.config files request now).2.made = service.made ∧
        (service.config files request now).2.contexts = service.contexts) := by
  have hbefore := h.shares
  have hsame := turn_context o service files request.monorepo config now s
  have htook := turn_took o service files request.monorepo config now s
  refine ⟨Prod.ext hsame.1 hsame.2, ?answered, ?asked, ?served, ?failed, ?unresolved⟩
  case answered => exact fun id hresult => hbefore.answered hnow htook hresult
  case asked => exact hbefore.asked hnow htook
  case served => exact fun context id hlives => hbefore.served_of_lives hnow htook hlives
  case failed => exact fun e hfailed => hbefore.get_of_failed hnow htook hfailed
  case unresolved =>
    intro files request now e _
    obtain ⟨hcontexts, hresolvers⟩ := config_keeps service files request now
    exact ⟨by rw [made, hresolvers, made], hcontexts⟩

end Service

namespace Service.Shared

def config : ResolvedConfig :=
  ⟨.file ⟨"/work/tailwind.config.js"⟩ 0, .path ⟨"/work/tailwind.config.js"⟩⟩

def waiting : Service OrderTable :=
  (((Service.new ConfigResolver.refreshRate contextTtl).config files (request false) 0).2.config
    files (request false) 0).2

def first : Turn OrderTable × Service OrderTable := waiting.turn oracle files false config 0 ()

theorem first_interleaves : Interleaves oracle ConfigResolver.refreshRate contextTtl
    ([] ++ (request false, config) :: []) [first.1] first.2 := by
  have hnew : Interleaves oracle ConfigResolver.refreshRate contextTtl [] []
      (.new ConfigResolver.refreshRate contextTtl) := .new
  have hone := hnew.resolved files (request false) 0 config rfl
  have htwo := hone.resolved files (request false) 0 config rfl
  apply Interleaves.turn files 0 () htwo
  intro t ht
  cases ht

/-- The second of them gets the context of the first almost ten seconds later. -/
theorem second_turn_shares : (∀ u ∈ [first.1], u.now ≤ 9999) ∧
    (first.2.turn oracle files false config 9999 ()).1.result = .ok 0 ∧
    (first.2.turn oracle files false config 9999 ()).1.calls = [] := by
  have hnow : ∀ u ∈ [first.1], u.now ≤ 9999 := by simp [first, turn]
  have hlives : Lives contextTtl [first.1] config.identity 9999 ⟨"", some 4, [], []⟩ 0 :=
    ⟨first.1, List.mem_singleton_self _, ⟨rfl, rfl⟩, rfl, by decide⟩
  obtain ⟨-, -, -, hserved, -⟩ := turn_shares first_interleaves files 9999 () hnow
  obtain ⟨hresult, hcalls, -⟩ := hserved _ 0 hlives
  exact ⟨hnow, hresult, hcalls⟩

end Service.Shared

end ClassSort

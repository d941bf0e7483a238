import ClassSort.Order.Table
import ClassSort.Proofs.Order.Expiring
import ClassSort.Proofs.Order.Resolving

/-!
Requests to a service in any order, interleaved between their two steps and with uses of the
resolvers. Whatever the cache holds was made by an earlier request for the same identity, and that
request was allowed to have it. Who is served from the cache is not asked again whether he may have
the context, so a search can be handed one that only a plain request may make.
-/

namespace ClassSort

namespace Service

variable {σ κ : Type}

def CssFirst (o : Ranking σ κ) (context : κ) : Prop :=
  ∃ v, o.version context = some v ∧ cssFirstVersion ≤ v

def made (service : Service κ) : List κ := service.resolvers.map (·.context)

inductive Outcome (o : Oracle σ κ) (service : Service κ) (files : FileTree) (monorepo : Bool)
    (config : ResolvedConfig) (now : Nat) (s : σ) : Except OrderError Nat × Service κ × σ → Prop where
  | found (id contexts) : service.contexts.get config.identity now = (some id, contexts) →
      Outcome o service files monorepo config now s (.ok id, { service with contexts }, s)
  | failed (contexts e t) : service.contexts.get config.identity now = (none, contexts) →
      o.create files config s = (.error e, t) →
      Outcome o service files monorepo config now s (.error e, { service with contexts }, t)
  | refused (contexts context v t) : service.contexts.get config.identity now = (none, contexts) →
      o.create files config s = (.ok context, t) → monorepo = true → o.version context = some v →
      cssFirstVersion ≤ v → Outcome o service files monorepo config now s
        (.error (.monorepoUnsupported v), { service with contexts }, t)
  | made (contexts context t) : service.contexts.get config.identity now = (none, contexts) →
      o.create files config s = (.ok context, t) →
      (monorepo = true → ¬ CssFirst o.toRanking context) →
      Outcome o service files monorepo config now s (.ok service.resolvers.length,
        { service with
          contexts := (contexts.purge now).insert config.identity service.resolvers.length now
          resolvers := service.resolvers ++ [.new context] }, t)

theorem context_outcome (o : Oracle σ κ) (service : Service κ) (files : FileTree) (monorepo : Bool)
    (config : ResolvedConfig) (now : Nat) (s : σ) : Outcome o service files monorepo config now s
      (service.context o files monorepo config now s) := by
  unfold context
  split
  · next id contexts hget => exact .found id contexts hget
  · next contexts hget =>
    dsimp only
    unfold create
    cases hcreate : o.create files config s with
    | mk result t =>
      cases result with
      | error e => exact .failed contexts e t hget hcreate
      | ok context =>
        dsimp only
        cases hversion : o.version context with
        | none =>
          refine .made contexts context t hget hcreate ?_
          rintro - ⟨v, hv, -⟩
          rw [hversion] at hv
          cases hv
        | some v =>
          by_cases hrefused : monorepo = true ∧ cssFirstVersion ≤ v
          · obtain ⟨rfl, hcss⟩ := hrefused
            simp only [hcss, and_self, if_true]
            exact .refused contexts context v t hget hcreate rfl hversion hcss
          · simp only [hrefused, if_false]
            refine .made contexts context t hget hcreate ?_
            rintro hmono ⟨w, hw, hcss⟩
            rw [hversion] at hw
            cases hw
            exact hrefused ⟨hmono, hcss⟩

/-- A second step that was taken, with what it came to. -/
structure Step where
  monorepo : Bool
  config : ResolvedConfig
  now : Nat
  result : Except OrderError Nat

/-- A service that was used in some way, with the second steps behind it. -/
inductive Serves (o : Oracle σ κ) (refresh ttl : Nat) : List Step → Service κ → Prop where
  | new : Serves o refresh ttl [] (.new refresh ttl)
  | config {past service} (files request now) : Serves o refresh ttl past service →
      Serves o refresh ttl past (service.config files request now).2
  | context {past service} (files monorepo config now s) : Serves o refresh ttl past service →
      Serves o refresh ttl
        (past ++ [⟨monorepo, config, now, (service.context o files monorepo config now s).1⟩])
        (service.context o files monorepo config now s).2.1
  | use {past service} (id tokens s) : Serves o refresh ttl past service → Serves o refresh ttl past
      (service.onResolver id (.ok []) (fun r s => r.resolve o.toRanking tokens s) s).2.1

variable {o : Oracle σ κ} {refresh ttl : Nat} {past : List Step} {service : Service κ}

theorem config_keeps (service : Service κ) (files : FileTree) (request : ConfigRequest) (now : Nat) :
    (service.config files request now).2.contexts = service.contexts ∧
      (service.config files request now).2.resolvers = service.resolvers := by
  unfold config
  dsimp only
  split <;> exact ⟨rfl, rfl⟩

theorem Serves.resolver (h : Serves o refresh ttl past service) (files : FileTree) (request : ConfigRequest)
    (now : Nat) (s : σ) : ∃ past', Serves o refresh ttl past' (service.resolver o files request now s).2.1 := by
  have hserves := h.config files request now
  unfold Service.resolver
  generalize service.config files request now = resolved at hserves
  obtain ⟨_ | config, served⟩ := resolved
  · exact ⟨past, hserves⟩
  · exact ⟨_, hserves.context files request.monorepo config now s⟩

/-- Resolvers learn, but they stay with their contexts. -/
theorem onResolver_keeps {α : Type} (service : Service κ) (id : Nat) (otherwise : α)
    (run : Resolver κ → σ → α × Resolver κ × σ) (hrun : ∀ r s, (run r s).2.1.context = r.context) (s : σ) :
    (service.onResolver id otherwise run s).2.1.contexts = service.contexts ∧
      (service.onResolver id otherwise run s).2.1.made = service.made := by
  unfold onResolver
  cases hr : service.resolvers[id]? with
  | none => exact ⟨rfl, rfl⟩
  | some r =>
    refine ⟨rfl, ?_⟩
    apply List.ext_getElem?
    intro i
    by_cases hi : id = i
    · subst hi
      obtain ⟨hlt, rfl⟩ := List.getElem?_eq_some_iff.mp hr
      simp [made, hrun, hlt]
    · simp [made, List.getElem?_set_ne hi]

def Made (o : Oracle σ κ) (past : List Step) (contexts : List κ) (e : ConfigIdentity × Nat × Nat) : Prop :=
  ∃ context, contexts[e.2.2]? = some context ∧ ∃ step ∈ past, step.config.identity = e.1 ∧
    step.now = e.2.1 ∧ step.result = .ok e.2.2 ∧ (step.monorepo = true → ¬ CssFirst o.toRanking context)

theorem Made.mono {e : ConfigIdentity × Nat × Nat} {contexts : List κ} (h : Made o past contexts e)
    (steps : List Step) (more : List κ) : Made o (past ++ steps) (contexts ++ more) e := by
  obtain ⟨context, hcontext, step, hstep, hmade⟩ := h
  obtain ⟨hlt, -⟩ := List.getElem?_eq_some_iff.mp hcontext
  refine ⟨context, ?_, step, List.mem_append_left _ hstep, hmade⟩
  rw [List.getElem?_append_left hlt]
  exact hcontext

structure Provided (o : Oracle σ κ) (ttl : Nat) (past : List Step) (service : Service κ) : Prop where
  ttl : service.contexts.ttl = ttl
  made : ∀ e ∈ service.contexts.entries, Made o past service.made e

/-- What a lookup leaves of the cache was there before it. -/
theorem Provided.get (h : Provided o ttl past service) {key : ConfigIdentity} {now : Nat} {result : Option Nat}
    {contexts : Expiring ConfigIdentity Nat} (hget : service.contexts.get key now = (result, contexts))
    (steps : List Step) : Provided o ttl (past ++ steps) { service with contexts } := by
  have hcontexts : contexts = (service.contexts.get key now).2 := by rw [hget]
  subst hcontexts
  constructor
  · exact Expiring.get_ttl.trans h.ttl
  · intro e he
    have hmade := (h.made e (Expiring.mem_of_mem_get he)).mono steps []
    rwa [List.append_nil] at hmade

theorem Provided.insert {step : Step} {context : κ} (h : Provided o ttl (past ++ [step]) service)
    (hresult : step.result = .ok service.resolvers.length)
    (hallowed : step.monorepo = true → ¬ CssFirst o.toRanking context) :
    Provided o ttl (past ++ [step]) { service with
      contexts := (service.contexts.purge step.now).insert step.config.identity service.resolvers.length step.now
      resolvers := service.resolvers ++ [.new context] } := by
  have hmade : (service.resolvers ++ [Resolver.new context]).map Resolver.context = service.made ++ [context] := by
    simp [Service.made, Resolver.new]
  constructor
  · exact h.ttl
  · intro e he
    rcases Expiring.mem_of_mem_insert he with rfl | he
    · refine ⟨context, ?_, step, List.mem_append_right _ List.mem_cons_self, rfl, rfl, hresult, hallowed⟩
      simp [Service.made, Resolver.new]
    · have hold := (h.made e (Expiring.mem_of_mem_purge he)).mono [] [context]
      rw [List.append_nil, ← hmade] at hold
      exact hold

theorem Provided.context (h : Provided o ttl past service) (files : FileTree) (monorepo : Bool)
    (config : ResolvedConfig) (now : Nat) (s : σ) :
    Provided o ttl (past ++ [⟨monorepo, config, now, (service.context o files monorepo config now s).1⟩])
      (service.context o files monorepo config now s).2.1 := by
  have hout := context_outcome o service files monorepo config now s
  generalize service.context o files monorepo config now s = outcome at hout
  cases hout with
  | found id contexts hget => exact h.get hget _
  | failed contexts e t hget hcreate => exact h.get hget _
  | refused contexts context v t hget hcreate hmono hversion hcss => exact h.get hget _
  | made contexts context t hget hcreate hallowed => exact (h.get hget _).insert rfl hallowed

theorem Serves.provided (h : Serves o refresh ttl past service) : Provided o ttl past service := by
  induction h with
  | new =>
    constructor
    · rfl
    · intro e he
      cases he
  | @config past service files request now _ ih =>
    obtain ⟨hcontexts, hresolvers⟩ := config_keeps service files request now
    constructor
    · rw [hcontexts]
      exact ih.ttl
    · rw [hcontexts, made, hresolvers]
      exact ih.made
  | context files monorepo config now s _ ih => exact ih.context files monorepo config now s
  | @use past service id tokens s _ ih =>
    obtain ⟨hcontexts, hmade⟩ := onResolver_keeps service id (.ok [])
      (fun r s => r.resolve o.toRanking tokens s) (fun r s => Resolver.resolve_context) s
    constructor
    · rw [hcontexts]
      exact ih.ttl
    · rw [hcontexts, hmade]
      exact ih.made

/-- The number leads to a resolver of a framework without configurations in files. -/
def IsCssFirst (o : Ranking σ κ) (service : Service κ) (id : Nat) : Prop :=
  ∃ context, service.made[id]? = some context ∧ CssFirst o context

theorem Provided.of_get (h : Provided o ttl past service) {key : ConfigIdentity} {now id : Nat}
    (hget : (service.contexts.get key now).1 = some id) : ∃ context, service.made[id]? = some context ∧
      ∃ step ∈ past, (key == step.config.identity) = true ∧ now - step.now < ttl ∧ step.result = .ok id ∧
        (step.monorepo = true → ¬ CssFirst o.toRanking context) := by
  obtain ⟨k, since, hmem, hkey, hlive⟩ := Expiring.exists_of_get hget
  obtain ⟨context, hcontext, step, hstep, rfl, rfl, hresult, hallowed⟩ := h.made _ hmem
  rw [h.ttl] at hlive
  exact ⟨context, hcontext, step, hstep, hkey, hlive, hresult, hallowed⟩

section Search

variable (service) (files : FileTree) (config : ResolvedConfig) (now : Nat) (s : σ)

/-- The second step of a search comes to such a resolver by the cache, or not at all. -/
theorem search_context_iff (id : Nat) :
    let answer := service.context o files true config now s
    answer.1 = .ok id ∧ IsCssFirst o.toRanking answer.2.1 id ↔
      (service.contexts.get config.identity now).1 = some id ∧ IsCssFirst o.toRanking service id := by
  have hout := context_outcome o service files true config now s
  generalize service.context o files true config now s = answer at hout
  cases hout with
  | found i contexts hget =>
    rw [hget]
    constructor
    · rintro ⟨⟨⟩, hcss⟩
      exact ⟨rfl, hcss⟩
    · rintro ⟨⟨⟩, hcss⟩
      exact ⟨rfl, hcss⟩
  | failed contexts e t hget hcreate => simp [hget]
  | refused contexts context v t hget hcreate hmono hversion hcss => simp [hget]
  | made contexts context t hget hcreate hallowed =>
    rw [hget]
    constructor
    · rintro ⟨⟨⟩, newest, hnewest, hcss⟩
      obtain rfl : context = newest := by simpa [Service.made, Resolver.new] using hnewest
      exact absurd hcss (hallowed rfl)
    · rintro ⟨⟨⟩, -⟩

theorem search_context_refused (hget : (service.contexts.get config.identity now).1 = none) {context : κ} {v : Nat}
    (hcreate : (o.create files config s).1 = .ok context) (hversion : o.version context = some v)
    (hcss : cssFirstVersion ≤ v) :
    (service.context o files true config now s).1 = .error (.monorepoUnsupported v) := by
  have hout := context_outcome o service files true config now s
  generalize service.context o files true config now s = answer at hout
  cases hout with
  | found id contexts hfound =>
    rw [hfound] at hget
    cases hget
  | failed contexts e t _ hfailed =>
    rw [hfailed] at hcreate
    cases hcreate
  | refused contexts other w t _ hmade _ hw _ =>
    rw [hmade] at hcreate
    cases hcreate
    rw [hversion] at hw
    cases hw
    rfl
  | made contexts other t _ hmade hallowed =>
    rw [hmade] at hcreate
    cases hcreate
    exact absurd ⟨v, hversion, hcss⟩ (hallowed rfl)

end Search

/-- A search yields a context of a framework without configurations in files exactly when one for the
same identity is alive, and then a plain request had it made. With none alive it is refused, by version. -/
theorem search_isCssFirst_iff (h : Serves o refresh ttl past service) (files : FileTree)
    (request : ConfigRequest) (hmono : request.monorepo = true) (now : Nat) (s : σ) :
    let answer := service.resolver o files request now s
    let config := (service.config files request now).1
    (∀ id, answer.1 = .ok id ∧ IsCssFirst o.toRanking answer.2.1 id ↔ ∃ c, config = .ok c ∧
      (service.contexts.get c.identity now).1 = some id ∧ IsCssFirst o.toRanking service id) ∧
    (∀ c id, config = .ok c → (service.contexts.get c.identity now).1 = some id →
      IsCssFirst o.toRanking service id → ∃ step ∈ past, step.monorepo = false ∧ step.result = .ok id ∧
        (c.identity == step.config.identity) = true ∧ now - step.now < ttl) ∧
    (∀ c context v, config = .ok c → (service.contexts.get c.identity now).1 = none →
      (o.create files c s).1 = .ok context → o.version context = some v → cssFirstVersion ≤ v →
      answer.1 = .error (.monorepoUnsupported v)) := by
  intro answer config
  obtain ⟨hcontexts, hresolvers⟩ := config_keeps service files request now
  have hmade : (service.config files request now).2.made = service.made := by rw [made, hresolvers, made]
  have hanswer : answer = service.resolver o files request now s := rfl
  have hconfig : config = (service.config files request now).1 := rfl
  unfold Service.resolver at hanswer
  refine ⟨?reached, ?plain, ?refused⟩
  case reached =>
    intro id
    generalize service.config files request now = resolved at hanswer hconfig hcontexts hmade
    obtain ⟨_ | c, served⟩ := resolved
    · simp [hanswer, hconfig]
    · dsimp only at hanswer hconfig hcontexts hmade
      rw [hmono] at hanswer
      have hiff := search_context_iff (o := o) served files c now s id
      rw [← hanswer, hcontexts] at hiff
      simp only [IsCssFirst, hmade] at hiff ⊢
      simpa [hconfig] using hiff
  case plain =>
    intro c id _ hget ⟨context, hcontext, hcss⟩
    obtain ⟨same, hsame, step, hstep, hkey, hlive, hresult, hallowed⟩ := h.provided.of_get hget
    obtain rfl : context = same := Option.some.inj (hcontext.symm.trans hsame)
    cases hplain : step.monorepo with
    | false => exact ⟨step, hstep, hplain, hresult, hkey, hlive⟩
    | true => exact absurd hcss (hallowed hplain)
  case refused =>
    intro c context v hc hget hcreate hversion hcss
    generalize service.config files request now = resolved at hanswer hconfig hcontexts
    obtain ⟨_ | c', served⟩ := resolved
    · rw [hconfig] at hc
      cases hc
    · dsimp only at hanswer hconfig hcontexts
      rw [hconfig] at hc
      cases hc
      rw [hmono] at hanswer
      rw [hanswer]
      rw [← hcontexts] at hget
      exact search_context_refused served files c now s hget hcreate hversion hcss

end Service

namespace Service.Shared

def oracle : Oracle Unit OrderTable := OrderTable.fixed ⟨"", some 4, [], []⟩

def files : FileTree :=
  ⟨[(["work"], .dir 0), (["work", "tailwind.config.js"], .file "" 0)]⟩

def request (monorepo : Bool) : ConfigRequest :=
  ⟨.path ⟨"tailwind.config.js"⟩, monorepo, ⟨"/work"⟩, some ⟨"/work/a.ts"⟩⟩

def service : Service OrderTable :=
  ((Service.new ConfigResolver.refreshRate contextTtl).resolver oracle files (request false) 0 ()).2.1

theorem search_answer : (service.resolver oracle files (request true) 0 ()).1 = .ok 0 ∧
    IsCssFirst oracle.toRanking (service.resolver oracle files (request true) 0 ()).2.1 0 := by
  refine ⟨rfl, ⟨"", some 4, [], []⟩, ?_, 4, rfl, ?_⟩
  · decide +kernel
  · decide

/-- Alone the search is refused, after a plain request it is served. -/
theorem search_is_served : (Service.resolver oracle (.new ConfigResolver.refreshRate contextTtl) files
      (request true) 0 ()).1 = .error (.monorepoUnsupported 4) ∧
    (service.resolver oracle files (request true) 0 ()).1 = .ok 0 ∧
    IsCssFirst oracle.toRanking (service.resolver oracle files (request true) 0 ()).2.1 0 := by
  constructor
  · rfl
  · exact search_answer

theorem search_served_from_plain : ∃ past, Serves oracle ConfigResolver.refreshRate contextTtl past service ∧
    (request true).monorepo = true ∧ ∃ step ∈ past, step.monorepo = false ∧ step.result = .ok 0 := by
  have hnew : Serves oracle ConfigResolver.refreshRate contextTtl []
      (.new ConfigResolver.refreshRate contextTtl) := .new
  obtain ⟨past, hserves⟩ := hnew.resolver files (request false) 0 ()
  obtain ⟨hiff, hplain, -⟩ := search_isCssFirst_iff hserves files (request true) rfl 0 ()
  obtain ⟨c, hc, hget, hcss⟩ := (hiff 0).mp search_answer
  obtain ⟨step, hstep, hmono, hresult, -⟩ := hplain c 0 hc hget hcss
  exact ⟨past, hserves, rfl, step, hstep, hmono, hresult⟩

end Service.Shared

end ClassSort

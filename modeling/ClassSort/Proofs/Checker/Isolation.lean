import ClassSort.Proofs.Checker.Passes
import ClassSort.Proofs.Order.Serving
import ClassSort.Proofs.Rule.SortedText
import ClassSort.Proofs.Source.Readings

/-!
With one order table and one configuration given in place, a checker that was used in any way works
like a new one. Contexts come and go with the clock, resolvers learn and the parser changes its grammar,
but each resolver that can be reached belongs to the table and remembers only what the table says, and
the grammar is the one that was asked for last, so the result for a file depends on the file alone.
-/

namespace ClassSort

variable {σ : Type}

def OrderTable.orders (t : OrderTable) (tokens : List String) : OrderMap :=
  (distinct tokens).map fun token =>
    (token, Resolver.reported (OrderTable.ranking (σ := Unit)) t t.key? token)

structure Resolver.Follows (σ : Type) (t : OrderTable) (r : Resolver OrderTable) : Prop where
  context : r.context = t
  faithful : r.Faithful (OrderTable.ranking (σ := σ)) t.key?

variable {t : OrderTable} {r : Resolver OrderTable} {s : σ}

theorem Resolver.follows_new : (Resolver.new t).Follows σ t where
  context := rfl
  faithful _ _ hk := by simp [new] at hk

/-- A table answers every request, and the resolver is none the worse for it. -/
theorem Resolver.Follows.resolve (h : r.Follows σ t) (tokens : List String) (s : σ) :
    ∃ r' s', r.resolve OrderTable.ranking tokens s = (.ok (t.orders tokens), r', s') ∧ r'.Follows σ t := by
  obtain ⟨rfl, hfaithful⟩ := h
  have hsteady : Steady (OrderTable.ranking (σ := σ)) r.context r.context.key? :=
    Sorting.ranking_steady r.context
  have hkept : (r.resolve OrderTable.ranking tokens s).2.1.Follows σ r.context :=
    ⟨resolve_context, hsteady.consistent.resolve hfaithful⟩
  obtain ⟨orders, r', s', hresolve⟩ : ∃ orders r' s',
      r.resolve OrderTable.ranking tokens s = (.ok orders, r', s') := by
    have hout := resolve_outcome (OrderTable.ranking (σ := σ)) r tokens s
    generalize r.resolve OrderTable.ranking tokens s = answer at hout
    cases hout with
    | remembered => exact ⟨_, _, _, rfl⟩
    | learned => exact ⟨_, _, _, rfl⟩
    | failed e s' _ hanswer => cases hanswer
    | mismatch entries s' _ hanswer hlen =>
      cases hanswer
      exact absurd (List.length_map ..) hlen
  obtain ⟨-, rfl, hknown, -⟩ := resolve_knows hresolve
  rw [hresolve] at hkept ⊢
  refine ⟨r', s', ?_, hkept⟩
  have hanswers : r'.answers tokens = r.context.orders tokens := by
    refine List.map_congr_left fun token htoken => ?_
    rw [key?_of_known hkept.faithful (hknown token (mem_distinct.mp htoken)), hkept.context]
    rfl
  rw [hanswers]

namespace Sorting

def tableViolations (t : OrderTable) (source : String) (roots : List Node) (options : SortOptions) :
    List Violation :=
  let candidates := Candidate.collect source options roots
  violations (t.orders (candidates.flatMap fun c => (ClassList.parse c.body).tokens))
    options.removeDuplicates candidates

theorem check_follows (h : r.Follows σ t) (source : String) (roots : List Node) (options : SortOptions)
    (s : σ) : ∃ r' s', check OrderTable.ranking source roots options r s =
      (.ok (tableViolations t source roots options), r', s') ∧ r'.Follows σ t := by
  unfold check tableViolations
  dsimp only
  split
  · next hempty =>
    rw [List.isEmpty_iff.mp hempty]
    exact ⟨r, s, rfl, h⟩
  · obtain ⟨r', s', hresolve, hr'⟩ := h.resolve
      ((Candidate.collect source options roots).flatMap fun c => (ClassList.parse c.body).tokens) s
    rw [hresolve]
    exact ⟨r', s', rfl, hr'⟩

end Sorting

def ConfigRequest.sought (files : FileTree) (r : ConfigRequest) : Except OrderError ConfigSource :=
  if r.monorepo then r.searched files else .ok r.source

def ConfigSource.Readable (files : FileTree) (cwd : Path) : ConfigSource → Prop
  | .inline _ => True
  | .path p => ∃ m, ConfigResolver.modifiedMillis files (cwd.join p) = .ok m

/-- The request is refused at no time: its configuration is there, and if it has to be searched for then the
framework has configurations in files. -/
structure ConfigRequest.Granted (files : FileTree) (t : OrderTable) (r : ConfigRequest) : Prop where
  readable : ∃ source, r.sought files = .ok source ∧ source.Readable files r.cwd
  allowed : r.monorepo = true → ¬ Service.CssFirst (OrderTable.ranking (σ := Unit)) t

theorem Service.config_eq (service : Service OrderTable) (files : FileTree) (request : ConfigRequest) (now : Nat) :
    service.config files request now =
      match request.sought files with
      | .error e => (.error e, service)
      | .ok source =>
        ((service.configs.resolve files source request.cwd now).1,
          { service with configs := (service.configs.resolve files source request.cwd now).2 }) := rfl

theorem ConfigSource.Readable.resolve {files : FileTree} {cwd : Path} {source : ConfigSource}
    (h : source.Readable files cwd) (r : ConfigResolver) (now : Nat) :
    ∃ config, (r.resolve files source cwd now).1 = .ok config := by
  cases source with
  | inline v => exact ⟨_, rfl⟩
  | path p =>
    obtain ⟨m, hm⟩ := h
    obtain ⟨n, hn⟩ : ∃ n, (r.modified files (cwd.join p) now).1 = .ok n := by
      unfold ConfigResolver.modified
      rw [hm]
      dsimp only
      split
      · split
        · exact ⟨_, rfl⟩
        · exact ⟨_, rfl⟩
      · exact ⟨_, rfl⟩
    unfold ConfigResolver.resolve
    dsimp only
    generalize r.modified files (cwd.join p) now = looked at hn
    obtain ⟨result, r'⟩ := looked
    obtain rfl : result = .ok n := hn
    exact ⟨_, rfl⟩

theorem ConfigRequest.Granted.config {files : FileTree} {request : ConfigRequest} (h : request.Granted files t)
    (service : Service OrderTable) (now : Nat) : ∃ config, (service.config files request now).1 = .ok config := by
  obtain ⟨source, hsought, hreadable⟩ := h.readable
  obtain ⟨config, hconfig⟩ := hreadable.resolve service.configs now
  rw [Service.config_eq, hsought]
  exact ⟨config, hconfig⟩

namespace Service

/-- All resolvers belong to the table, and every live context leads to one of them. -/
structure Follows (σ : Type) (t : OrderTable) (service : Service OrderTable) : Prop where
  resolvers : ∀ r ∈ service.resolvers, r.Follows σ t
  live : ∀ e ∈ service.contexts.entries, e.2.2 < service.resolvers.length

variable {service : Service OrderTable}

theorem follows_new (refresh ttl : Nat) : (Service.new refresh ttl).Follows σ t :=
  ⟨by simp [new], by simp [new, Expiring.empty]⟩

/-- A context that is handed out was found alive or made, and either way belongs to the table. None is refused
but to a search. -/
theorem Follows.context (h : service.Follows σ t) (files : FileTree) (monorepo : Bool) (config : ResolvedConfig)
    (now : Nat) (s : σ) :
    let answer := service.context (OrderTable.fixed t) files monorepo config now s
    answer.2.1.Follows σ t ∧ (∀ id, answer.1 = .ok id → id < answer.2.1.resolvers.length) ∧
      ((monorepo = true → ¬ CssFirst (OrderTable.ranking (σ := σ)) t) → ∃ id, answer.1 = .ok id) := by
  intro answer
  have hlive {contexts : Expiring ConfigIdentity Nat} {result : Option Nat}
      (hget : service.contexts.get config.identity now = (result, contexts)) :
      ∀ e ∈ contexts.entries, e.2.2 < service.resolvers.length := by
    intro e he
    have hkept : e ∈ (service.contexts.get config.identity now).2.entries := by rwa [hget]
    exact h.live e (Expiring.mem_of_mem_get hkept)
  have hout : Outcome _ service files monorepo config now s answer := context_outcome (OrderTable.fixed (σ := σ) t) ..
  generalize answer = answer at hout ⊢
  cases hout with
  | found id contexts hget =>
    have halive : (service.contexts.get config.identity now).1 = some id := by rw [hget]
    obtain ⟨_, _, hmem, -, -⟩ := Expiring.exists_of_get halive
    refine ⟨⟨h.resolvers, hlive hget⟩, ?_, fun _ => ⟨id, rfl⟩⟩
    rintro _ ⟨⟩
    exact h.live _ hmem
  | failed contexts e s' _ hcreate => cases hcreate
  | refused contexts context v s' hget hcreate hmonorepo hversion hcss =>
    cases hcreate
    refine ⟨⟨h.resolvers, hlive hget⟩, by simp, fun hallowed => ?_⟩
    exact absurd ⟨v, hversion, hcss⟩ (hallowed hmonorepo)
  | made contexts context s' hget hcreate =>
    cases hcreate
    refine ⟨⟨?_, ?_⟩, ?_, fun _ => ⟨_, rfl⟩⟩
    · intro r hr
      rcases List.mem_append.mp hr with hr | hr
      · exact h.resolvers r hr
      · rw [List.mem_singleton.mp hr]
        exact Resolver.follows_new
    · intro e he
      rw [List.length_append]
      rcases Expiring.mem_of_mem_insert he with rfl | he
      · exact Nat.lt_succ_self _
      · exact Nat.lt_succ_of_lt (hlive hget e (Expiring.mem_of_mem_purge he))
    · rintro _ ⟨⟩
      rw [List.length_append]
      exact Nat.lt_succ_self _

/-- A search may be refused, and a configuration be missing. -/
theorem Follows.resolver (h : service.Follows σ t) (files : FileTree) (request : ConfigRequest) (now : Nat) (s : σ) :
    let answer := service.resolver (OrderTable.fixed t) files request now s
    answer.2.1.Follows σ t ∧ (∀ id, answer.1 = .ok id → id < answer.2.1.resolvers.length) ∧
      (request.Granted files t → ∃ id, answer.1 = .ok id) := by
  intro answer
  obtain ⟨hcontexts, hresolvers⟩ := config_keeps service files request now
  have hgranted : request.Granted files t → ∃ config, (service.config files request now).1 = .ok config :=
    fun hgranted => hgranted.config service now
  have hanswer : answer = service.resolver (OrderTable.fixed t) files request now s := rfl
  unfold Service.resolver at hanswer
  generalize service.config files request now = resolved at hcontexts hresolvers hgranted hanswer
  obtain ⟨result, served⟩ := resolved
  have hserved : served.Follows σ t := ⟨hresolvers.symm ▸ h.resolvers, by
    rw [show served.contexts = service.contexts from hcontexts, show served.resolvers = service.resolvers from hresolvers]
    exact h.live⟩
  rw [hanswer]
  cases result with
  | error e =>
    refine ⟨hserved, by simp, fun h => ?_⟩
    obtain ⟨config, hconfig⟩ := hgranted h
    cases hconfig
  | ok config =>
    obtain ⟨hfollows, hid, hsome⟩ := hserved.context files request.monorepo config now s
    exact ⟨hfollows, hid, fun h => hsome h.allowed⟩

theorem Follows.onResolver {α : Type} (h : service.Follows σ t) {id : Nat}
    (hid : id < service.resolvers.length) (otherwise : α)
    {run : Resolver OrderTable → σ → α × Resolver OrderTable × σ} {result : α}
    (hrun : ∀ r s, r.Follows σ t → ∃ r' s', run r s = (result, r', s') ∧ r'.Follows σ t) (s : σ) :
    ∃ service' s', service.onResolver id otherwise run s = (result, service', s') ∧
      service'.Follows σ t := by
  have hr := h.resolvers _ (List.getElem_mem hid)
  obtain ⟨r', s', hresult, hr'⟩ := hrun service.resolvers[id] s hr
  unfold Service.onResolver
  rw [List.getElem?_eq_getElem hid]
  dsimp only
  rw [hresult]
  refine ⟨_, _, rfl, ?_, ?_⟩
  · intro r hmem
    rcases List.mem_or_eq_of_mem_set hmem with hmem | rfl
    · exact h.resolvers r hmem
    · exact hr'
  · intro e he
    rw [List.length_set]
    exact h.live e he

end Service

def Settings.inPlace (settings : Settings) (value : Json) : Settings :=
  { settings with config := .inline value, monorepo := false }

namespace Checker

/-- One more request to a checker. Files, clock and state may be others each time. -/
inductive Use (σ : Type) where
  | check (files : FileTree) (now : Nat) (path : Path) (source : String) (s : σ)
  | fix (files : FileTree) (clock : Nat → Nat) (path : Path) (source : String) (s : σ)

def after {κ : Type} (o : Oracle σ κ) (c : Checker κ) : Use σ → Checker κ
  | .check files now path source s => (c.check o files now path source s).2.1
  | .fix files clock path source s => (c.fix o files clock path source s).2.1

structure Follows (σ : Type) (t : OrderTable) (g : Script.Grammars) (settings : Settings) (c : Checker OrderTable) :
    Prop where
  settings : c.settings = settings
  service : c.service.Follows σ t
  parser : c.parser.Ready g

def tableFindings (t : OrderTable) (g : Script.Grammars) (options : SortOptions) (kind : FileKind) (source : String) :
    List Violation :=
  let roots := Source.roots g source kind
  sortViolations (styleViolations kind source ++ Sorting.tableViolations t source roots options ++
    groupingViolations kind source roots)

def tableCheck (t : OrderTable) (g : Script.Grammars) (options : SortOptions) (path : Path) (source : String) :
    Except CheckError (List Violation) :=
  match FileKind.ofPath? path with
  | none => .ok []
  | some kind =>
    (g.outcome (Source.readings source kind) (tableFindings t g options kind source)).mapError (.parsing path)

variable {g : Script.Grammars} {settings : Settings} {value : Json} {c d : Checker OrderTable}
  {files files' : FileTree} {path : Path} {source : String}

theorem follows_new (cwd : Path) : (Checker.new g settings cwd).Follows σ t g settings :=
  ⟨rfl, Service.follows_new _ _, SourceParser.ready_new g⟩

/-- Whatever the sorting rule comes to, the checker belongs to the table. -/
theorem Follows.sortingViolations (h : c.Follows σ t g settings) (files : FileTree) (now : Nat) (path : Path)
    (source : String) (roots : List Node) (s : σ) :
    let answer := c.sortingViolations (OrderTable.fixed t) files now path source roots s
    answer.2.1.Follows σ t g settings ∧ ((roots ≠ [] → (c.request path).Granted files t) →
      answer.1 = .ok (Sorting.tableViolations t source roots settings.sort)) := by
  intro answer
  have hanswer : answer = c.sortingViolations (OrderTable.fixed t) files now path source roots s := rfl
  obtain ⟨rfl, hservice, hparser⟩ := h
  unfold Checker.sortingViolations at hanswer
  split at hanswer
  · next hempty =>
    rw [hanswer, List.isEmpty_iff.mp hempty]
    exact ⟨⟨rfl, hservice, hparser⟩, fun _ => rfl⟩
  · next hroots =>
    obtain ⟨hresolved, hid, hsome⟩ := hservice.resolver files (c.request path) now s
    generalize c.service.resolver (OrderTable.fixed t) files (c.request path) now s = resolved
      at hresolved hid hsome hanswer
    obtain ⟨result, service₁, s₁⟩ := resolved
    rw [hanswer]
    cases result with
    | error e =>
      refine ⟨⟨rfl, hresolved, hparser⟩, fun hgranted => ?_⟩
      obtain ⟨id, hid⟩ := hsome (hgranted (by simpa using hroots))
      cases hid
    | ok id =>
      obtain ⟨service₂, s₂, hrun, hservice₂⟩ := Service.Follows.onResolver hresolved (hid id rfl) (.ok [])
        (fun r s hr => Sorting.check_follows hr source roots c.settings.sort s) s₁
      have hrun' : service₁.onResolver id (.ok []) (Sorting.check (OrderTable.fixed t).toRanking source roots
          c.settings.sort) s₁ = _ := hrun
      dsimp only
      rw [hrun']
      exact ⟨⟨rfl, hservice₂, hparser⟩, fun _ => rfl⟩

def Granted (t : OrderTable) (g : Script.Grammars) (files : FileTree) (path : Path) (source : String)
    (c : Checker OrderTable) : Prop :=
  ∀ kind, FileKind.ofPath? path = some kind → Source.roots g source kind ≠ [] → (c.request path).Granted files t

/-- A check comes to the same whatever state the checker is in. -/
theorem Follows.check (h : c.Follows σ t g settings) (files : FileTree) (now : Nat) (path : Path) (source : String)
    (s : σ) :
    let answer := c.check (OrderTable.fixed t) files now path source s
    answer.2.1.Follows σ t g settings ∧
      (c.Granted t g files path source → answer.1 = tableCheck t g settings.sort path source) := by
  unfold Checker.check tableCheck Granted
  cases FileKind.ofPath? path with
  | none => exact ⟨h, fun _ => rfl⟩
  | some kind =>
    obtain ⟨parser, hparser, hroots⟩ := h.parser.roots_eq source kind
    have hparsed : Follows σ t g settings { c with parser } := ⟨h.settings, h.service, hparser⟩
    dsimp only
    rw [hroots]
    unfold Script.Grammars.outcome
    cases (Source.readings source kind).findSome? g.failure? with
    | some e => exact ⟨hparsed, fun _ => rfl⟩
    | none =>
      obtain ⟨hfollows, hsome⟩ := hparsed.sortingViolations files now path source (Source.roots g source kind) s
      dsimp only [findings]
      generalize Checker.sortingViolations _ _ _ _ _ _ { c with parser } s = answer at hfollows hsome
      obtain ⟨result, c', s'⟩ := answer
      cases result with
      | error e =>
        refine ⟨hfollows, fun hgranted => ?_⟩
        cases hsome (hgranted kind rfl)
      | ok sorting =>
        refine ⟨hfollows, fun hgranted => ?_⟩
        obtain rfl := Except.ok.inj (hsome (hgranted kind rfl))
        rfl

/-- A configuration given in place is never refused. -/
theorem Follows.granted (h : c.Follows σ t g (settings.inPlace value)) (files : FileTree) (path : Path)
    (source : String) : c.Granted t g files path source := by
  obtain ⟨cset, cwd, service, parser⟩ := c
  obtain ⟨rfl, -⟩ := h
  exact fun _ _ _ => ⟨⟨.inline value, rfl, trivial⟩, nofun⟩

theorem Follows.fixFrom_follows (h : c.Follows σ t g settings) {clock : Nat → Nat} {left : Nat} {done : FixOutcome}
    {s : σ} : (fixFrom (OrderTable.fixed t) files clock path left done c s).2.1.Follows σ t g settings := by
  induction left generalizing done c s with
  | zero => exact h
  | succ left ih =>
    rw [Checker.fixFrom]
    split
    · exact h
    · split
      · exact h
      · next fixed _ =>
        split
        · exact h
        · obtain ⟨hfollows, -⟩ := h.check files (clock (done.passes + 1)) path fixed.output s
          dsimp only
          generalize c.check (OrderTable.fixed t) files (clock (done.passes + 1)) path fixed.output s = answer
            at hfollows
          obtain ⟨_ | remaining, c₁, s₁⟩ := answer
          · exact hfollows
          · exact ih hfollows

theorem Follows.after (h : c.Follows σ t g settings) (use : Use σ) :
    (c.after (OrderTable.fixed t) use).Follows σ t g settings := by
  cases use with
  | check files now path source s => exact (h.check files now path source s).1
  | fix files clock path source s =>
    obtain ⟨hfollows, -⟩ := h.check files (clock 0) path source s
    rw [Checker.after, Checker.fix]
    generalize c.check (OrderTable.fixed t) files (clock 0) path source s = answer at hfollows
    obtain ⟨_ | found, c₁, s₁⟩ := answer
    · exact hfollows
    · exact hfollows.fixFrom_follows

/-- No history of requests keeps a checker from belonging to its table. -/
theorem Follows.history (h : c.Follows σ t g settings) (history : List (Use σ)) :
    (history.foldl (Checker.after (OrderTable.fixed t)) c).Follows σ t g settings := by
  induction history generalizing c with
  | nil => exact h
  | cons use history ih => exact ih (h.after use)

/-- With a configuration given in place only the parser can fail. -/
theorem Follows.check_inPlace (h : c.Follows σ t g (settings.inPlace value)) (files : FileTree) (now : Nat)
    (path : Path) (source : String) (s : σ) :
    ∃ c' s', c.check (OrderTable.fixed t) files now path source s =
        (tableCheck t g settings.sort path source, c', s') ∧
      c'.Follows σ t g (settings.inPlace value) := by
  obtain ⟨hfollows, hfound⟩ := h.check files now path source s
  exact ⟨_, _, Prod.ext (hfound (h.granted files path source)) rfl, hfollows⟩

/-- Two checkers go through the same passes. -/
theorem Follows.fixFrom_eq (hc : c.Follows σ t g (settings.inPlace value))
    (hd : d.Follows σ t g (settings.inPlace value)) {clock clock' : Nat → Nat} {left : Nat}
    {done : FixOutcome} {s s' : σ} :
    (fixFrom (OrderTable.fixed t) files clock path left done c s).1 =
      (fixFrom (OrderTable.fixed t) files' clock' path left done d s').1 := by
  induction left generalizing done c d s s' with
  | zero => rfl
  | succ left ih =>
    rw [Checker.fixFrom, Checker.fixFrom]
    split
    · rfl
    · split
      · rfl
      · next fixed _ =>
        split
        · rfl
        · obtain ⟨c₁, s₁, hcheck, hc₁⟩ := hc.check_inPlace files (clock (done.passes + 1)) path fixed.output s
          obtain ⟨d₁, s₁', hcheck', hd₁⟩ := hd.check_inPlace files' (clock' (done.passes + 1)) path fixed.output s'
          dsimp only
          rw [hcheck, hcheck']
          cases tableCheck t g settings.sort path fixed.output with
          | error e => rfl
          | ok found => exact ih hc₁ hd₁

theorem Follows.fix_eq (hc : c.Follows σ t g (settings.inPlace value))
    (hd : d.Follows σ t g (settings.inPlace value)) {clock clock' : Nat → Nat} {s s' : σ} :
    (c.fix (OrderTable.fixed t) files clock path source s).1 =
      (d.fix (OrderTable.fixed t) files' clock' path source s').1 := by
  obtain ⟨c₁, s₁, hcheck, hc₁⟩ := hc.check_inPlace files (clock 0) path source s
  obtain ⟨d₁, s₁', hcheck', hd₁⟩ := hd.check_inPlace files' (clock' 0) path source s'
  unfold Checker.fix
  rw [hcheck, hcheck']
  cases tableCheck t g settings.sort path source with
  | error e => rfl
  | ok found => exact hc₁.fixFrom_eq hd₁

/-- The results for a file do not depend on what was processed before it, nor on when: after any
history a check and a fix come to what they come to on a new checker, with the same error if the parser
fails. This holds for every library of grammars. -/
theorem results_isolated (t : OrderTable) (g : Script.Grammars) (settings : Settings) (value : Json) (cwd : Path)
    (history : List (Use σ)) (path : Path) (source : String) (s s' : σ) :
    let fresh := Checker.new g (settings.inPlace value) cwd
    let used := history.foldl (Checker.after (OrderTable.fixed t)) fresh
    (∀ files now files' now', (used.check (OrderTable.fixed t) files now path source s).1 =
        (fresh.check (OrderTable.fixed t) files' now' path source s').1) ∧
      ∀ files clock files' clock', (used.fix (OrderTable.fixed t) files clock path source s).1 =
        (fresh.fix (OrderTable.fixed t) files' clock' path source s').1 := by
  intro fresh used
  have hfresh : fresh.Follows σ t g (settings.inPlace value) := follows_new cwd
  have hused : used.Follows σ t g (settings.inPlace value) := hfresh.history history
  constructor
  · intro files now files' now'
    obtain ⟨_, _, hcheck, -⟩ := hused.check_inPlace files now path source s
    obtain ⟨_, _, hcheck', -⟩ := hfresh.check_inPlace files' now' path source s'
    rw [hcheck, hcheck']
  · intro files clock files' clock'
    exact hused.fix_eq hfresh

end Checker

end ClassSort

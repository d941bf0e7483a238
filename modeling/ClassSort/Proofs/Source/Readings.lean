import ClassSort.Source.Roots

/-!
What a file is read as. Which texts a file hands to the parser depends on the file alone, and what the
parser makes of a text depends on the text, its language and the library, but not on the grammar that an
earlier text was read with. So the roots of a file are told without a parser: they are those of the trees
of its texts, unless the library fails one of them.
-/

namespace ClassSort

open Script (Dialect Tree Grammars)

abbrev Passage := Dialect × List Char

namespace Script.Grammars

variable (g : Grammars)

/-- The trees of a text, none if the library gives up on it. -/
def read (dialect : Dialect) (text : List Char) : List Tree := (g.trees? dialect text).getD []

def failure? (r : Passage) : Option SyntaxError :=
  match g.refusal r.1 with
  | some cause => some (.grammar r.1 cause)
  | none => if (g.trees? r.1 r.2).isNone then some (.unparsed r.1) else none

def outcome {α : Type} (rs : List Passage) (a : α) : Except SyntaxError α :=
  match rs.findSome? g.failure? with
  | some e => .error e
  | none => .ok a

end Script.Grammars

/-! The roots of a file. -/

namespace Source

variable (g : Grammars)

def scriptRoots (text : List Char) (offset : Nat) (dialect : Dialect) : List Node :=
  Script.forestRoots ⟨text, offset⟩ (g.read dialect text)

def braceExpression? (text : List Char) (start : Nat) (dialect : Dialect) : Option Node :=
  let wrapped := '(' :: text ++ [')']
  Script.soleExpression ⟨wrapped, start - 1⟩ (g.read dialect wrapped)

def part (source : List Char) (dialect : Dialect) : Markup.Part → AttributePart
  | .text span => .text span
  | .braces span =>
    let text := (sliceChars? source span.inner).getD []
    .mustache span ((braceExpression? g text span.inner.start dialect).getD (.other span.inner))

def embeddedRoots (source : List Char) : Markup.Finding → List Node
  | .script content d =>
    match sliceChars? source content with
    | some text => scriptRoots g text content.start d
    | none => []
  | _ => []

def attribute? (source : List Char) (dialect : Dialect) : Markup.Finding → Option Node
  | .classes v => some (.classAttribute v.span v.isQuoted (v.parts.map (part g source dialect)))
  | _ => none

def documentRoots (source : List Char) (found : List Markup.Finding) : List Node :=
  found.flatMap (embeddedRoots g source) ++ found.filterMap (attribute? g source (documentDialect found))

def roots (source : String) (kind : FileKind) : List Node :=
  match kind.dialect? with
  | some dialect => scriptRoots g source.toList 0 dialect
  | none => documentRoots g source.toList (Markup.scan source kind.hasBraces)

/-! The texts of a file. -/

def partReadings (source : List Char) (dialect : Dialect) : Markup.Part → List Passage
  | .text _ => []
  | .braces span => [(dialect, '(' :: (sliceChars? source span.inner).getD [] ++ [')'])]

def embeddedReadings (source : List Char) : Markup.Finding → List Passage
  | .script content d => (sliceChars? source content).toList.map (d, ·)
  | _ => []

def attributeReadings (source : List Char) (dialect : Dialect) : Markup.Finding → List Passage
  | .classes v => v.parts.flatMap (partReadings source dialect)
  | _ => []

/-- The texts that a file hands to the parser, in this order. -/
def readings (source : String) (kind : FileKind) : List Passage :=
  match kind.dialect? with
  | some dialect => [(dialect, source.toList)]
  | none =>
    let found := Markup.scan source kind.hasBraces
    found.flatMap (embeddedReadings source.toList) ++
      found.flatMap (attributeReadings source.toList (documentDialect found))

end Source

/-! Parsers. -/

/-- A parser of a library between two texts. It holds the grammar that it was asked for last. -/
structure SourceParser.Ready (g : Grammars) (p : SourceParser) : Prop where
  grammars : p.grammars = g
  held : p.held = p.loaded
  granted : ∀ dialect, p.loaded = some dialect → g.refusal dialect = none

/-- A part of the work on a file: it reads these texts, whatever was read before, and has this result
unless one of them fails. -/
def Parses (g : Grammars) {α : Type} (x : Parsing α) (rs : List Passage) (a : α) : Prop :=
  ∀ p : SourceParser, p.Ready g → ∃ p' : SourceParser, p'.Ready g ∧ x.run p = (g.outcome rs a, p')

variable {g : Grammars} {α β : Type}

theorem SourceParser.ready_new (g : Grammars) : (SourceParser.new g).Ready g := ⟨rfl, rfl, by simp [new]⟩

/-- The second part of some work is done with the parser that the first part leaves behind. -/
theorem Parsing.run_bind (x : Parsing α) (f : α → Parsing β) (p : SourceParser) : (x >>= f).run p =
    match x.run p with
    | (.error e, p) => (.error e, p)
    | (.ok a, p) => (f a).run p := by
  rw [ExceptT.run_bind]
  simp only [Bind.bind, StateT.bind]
  obtain ⟨result, p'⟩ := x.run p
  cases result <;> rfl

namespace Parses

variable {x : Parsing α} {f : α → Parsing β} {rs rs' : List Passage} {a : α} {b : β}

theorem pure (a : α) : Parses g (Pure.pure a) [] a := fun p hp => ⟨p, hp, rfl⟩

theorem bind (hx : Parses g x rs a) (hf : Parses g (f a) rs' b) : Parses g (x >>= f) (rs ++ rs') b := by
  intro p hp
  obtain ⟨p₁, hp₁, hrun⟩ := hx p hp
  obtain ⟨p₂, hp₂, hrun'⟩ := hf p₁ hp₁
  rw [Parsing.run_bind, hrun]
  unfold Grammars.outcome at hrun' ⊢
  rw [List.findSome?_append]
  cases hfailed : rs.findSome? g.failure? with
  | some e => exact ⟨p₁, hp₁, rfl⟩
  | none => exact ⟨p₂, hp₂, hrun'⟩

theorem map (hx : Parses g x rs a) (f : α → β) : Parses g (f <$> x) rs (f a) := by
  rw [map_eq_pure_bind, ← List.append_nil rs]
  exact hx.bind (.pure (f a))

theorem mapM {γ : Type} {f : γ → Parsing α} {r : γ → List Passage} {h : γ → α} (hf : ∀ c, Parses g (f c) (r c) (h c))
    (cs : List γ) : Parses g (cs.mapM f) (cs.flatMap r) (cs.map h) := by
  induction cs with
  | nil => exact .pure []
  | cons c cs ih =>
    rw [List.mapM_cons]
    exact (hf c).bind (ih.map (h c :: ·))

end Parses

namespace SourceParser

open Parses

theorem run_load (dialect : Dialect) (p : SourceParser) : (load dialect).run p =
    if p.loaded = some dialect then (.ok (), p)
    else
      match p.grammars.refusal dialect with
      | some cause => (.error (.grammar dialect cause), p)
      | none => (.ok (), { p with held := some dialect, loaded := some dialect }) := by
  rw [load, Parsing.run_bind, show (get : Parsing SourceParser).run p = (.ok p, p) from rfl]
  dsimp only
  by_cases hloaded : p.loaded = some dialect
  · rw [if_pos hloaded, if_neg fun h => h hloaded]
    rfl
  · rw [if_neg hloaded, if_pos hloaded]
    cases p.grammars.refusal dialect <;> rfl

/-- Where it can be loaded, a grammar is held afterwards, whatever was held before. -/
theorem load_ready {p : SourceParser} (hp : p.Ready g) (dialect : Dialect) : ∃ p' : SourceParser, p'.Ready g ∧
    match g.refusal dialect with
    | some cause => (load dialect).run p = (.error (.grammar dialect cause), p')
    | none => p'.held = some dialect ∧ (load dialect).run p = (.ok (), p') := by
  rw [run_load, hp.grammars]
  by_cases hloaded : p.loaded = some dialect
  · refine ⟨p, hp, ?_⟩
    rw [hp.granted dialect hloaded, if_pos hloaded]
    exact ⟨hp.held.trans hloaded, rfl⟩
  · rw [if_neg hloaded]
    cases hrefusal : g.refusal dialect with
    | some cause => exact ⟨p, hp, rfl⟩
    | none =>
      refine ⟨{ p with held := some dialect, loaded := some dialect }, ⟨hp.grammars, rfl, ?_⟩, rfl, ?_⟩
      · rintro other ⟨⟩
        exact hrefusal
      · rw [hp.grammars]

theorem parse_parses (dialect : Dialect) (text : List Char) :
    Parses g (parse dialect text) [(dialect, text)] (g.read dialect text) := by
  intro p hp
  obtain ⟨p', hp', hload⟩ := load_ready hp dialect
  refine ⟨p', hp', ?_⟩
  rw [parse, Parsing.run_bind, Grammars.outcome, List.findSome?_singleton, Grammars.failure?]
  cases hrefusal : g.refusal dialect with
  | some cause =>
    simp only [hrefusal] at hload ⊢
    rw [hload]
  | none =>
    simp only [hrefusal] at hload ⊢
    obtain ⟨hheld, hrun⟩ := hload
    rw [hrun]
    dsimp only
    rw [Parsing.run_bind, show (get : Parsing SourceParser).run p' = (.ok p', p') from rfl]
    dsimp only
    rw [hheld, Option.bind_some, hp'.grammars, Grammars.read]
    cases g.trees? dialect text <;> rfl

variable (source : List Char) (dialect : Dialect)

theorem scriptRoots_parses (text : List Char) (offset : Nat) (dialect : Dialect) :
    Parses g (scriptRoots text offset dialect) [(dialect, text)] (Source.scriptRoots g text offset dialect) :=
  (parse_parses dialect text).map _

theorem braceExpression?_parses (text : List Char) (start : Nat) : Parses g (braceExpression? text start dialect)
    [(dialect, '(' :: text ++ [')'])] (Source.braceExpression? g text start dialect) :=
  (parse_parses dialect _).map _

theorem part_parses (p : Markup.Part) :
    Parses g (part source dialect p) (Source.partReadings source dialect p) (Source.part g source dialect p) := by
  cases p with
  | text span => exact .pure _
  | braces span => exact (braceExpression?_parses dialect _ _).map _

theorem embeddedRoots_parses (f : Markup.Finding) : Parses g (embeddedRoots source f)
    (Source.embeddedReadings source f) (Source.embeddedRoots g source f) := by
  cases f with
  | script content d =>
    simp only [embeddedRoots, Source.embeddedReadings, Source.embeddedRoots]
    cases sliceChars? source content with
    | none => exact .pure []
    | some text => exact scriptRoots_parses text content.start d
  | _ => exact .pure []

theorem attribute?_parses (f : Markup.Finding) : Parses g (attribute? source dialect f)
    (Source.attributeReadings source dialect f) (Source.attribute? g source dialect f) := by
  cases f with
  | classes v => exact (Parses.mapM (part_parses source dialect) v.parts).map _
  | _ => exact .pure none

theorem documentRoots_parses (found : List Markup.Finding) : Parses g (documentRoots source found)
    (found.flatMap (Source.embeddedReadings source) ++
      found.flatMap (Source.attributeReadings source (Source.documentDialect found)))
    (Source.documentRoots g source found) := by
  have hscripts := Parses.mapM (embeddedRoots_parses (g := g) source) found
  have hattributes := Parses.mapM (attribute?_parses (g := g) source (Source.documentDialect found)) found
  have hroots : Source.documentRoots g source found = (found.map (Source.embeddedRoots g source)).flatten ++
      (found.map (Source.attribute? g source (Source.documentDialect found))).filterMap id := by
    rw [List.filterMap_map, ← List.flatMap_def]
    rfl
  rw [hroots]
  exact hscripts.bind (hattributes.map _)

/-- A parser that is ready makes of a file what the library makes of its texts, and stays ready. -/
theorem Ready.roots_eq {p : SourceParser} (hp : p.Ready g) (source : String) (kind : FileKind) :
    ∃ p' : SourceParser, p'.Ready g ∧
      p.roots source kind = (g.outcome (Source.readings source kind) (Source.roots g source kind), p') := by
  have hparses : Parses g (rootsOf source kind) (Source.readings source kind) (Source.roots g source kind) := by
    unfold rootsOf Source.readings Source.roots
    cases kind.dialect? with
    | some dialect => exact scriptRoots_parses source.toList 0 dialect
    | none => exact documentRoots_parses source.toList _
  exact hparses p hp

theorem Ready.roots_ok {p p' : SourceParser} (hp : p.Ready g) {source : String} {kind : FileKind} {roots : List Node}
    (h : p.roots source kind = (.ok roots, p')) : p'.Ready g ∧ roots = Source.roots g source kind := by
  obtain ⟨p₁, hp₁, hroots⟩ := hp.roots_eq source kind
  rw [hroots, Prod.mk.injEq] at h
  obtain ⟨houtcome, rfl⟩ := h
  refine ⟨hp₁, ?_⟩
  unfold Grammars.outcome at houtcome
  split at houtcome
  · cases houtcome
  · exact (Except.ok.inj houtcome).symm

end SourceParser

end ClassSort

import ClassSort.Proofs.Script.BuiltIn

/-!
Lowering does not depend on where its text stands. A script in a document has the roots that it has
alone, moved to its place. An expression in braces is read between parentheses that are not in the
document; since no literal, name or chunk begins or ends with a parenthesis, those stand between the
parentheses, and read the same in the document.
-/

namespace ClassSort

open Candidate (Embeds)

structure Enclosed (text : String) : Prop where
  first : ∃ c cs, text.toList = c :: cs ∧ c ≠ '('
  last : ∃ cs c, text.toList = cs ++ [c] ∧ c ≠ ')'

/-- What stands in `text` and is no parenthesis at either end stands in `source` behind `k` bytes. -/
def Shows (source text : String) (k : Nat) : Prop :=
  ∀ s inside, slice? text s = some inside → Enclosed inside → slice? source (s.shift k) = some inside

variable {source text : String} {k : Nat} {s : Span}

/-! Texts. -/

/-- A text between two that are enclosed. -/
theorem Enclosed.delimited {opening closing : String} (hopening : Enclosed opening)
    (hclosing : Enclosed closing) (inside : String) : Enclosed (opening ++ inside ++ closing) := by
  obtain ⟨c, cs, hfirst, hopen⟩ := hopening.first
  obtain ⟨ds, d, hlast, hclose⟩ := hclosing.last
  exact ⟨⟨c, cs ++ inside.toList ++ closing.toList, by simp [hfirst], hopen⟩,
    ⟨opening.toList ++ inside.toList ++ ds, d, by simp [hlast], hclose⟩⟩

theorem enclosed_of_plain {name : String} (hnone : name.toList ≠ [])
    (hplain : ∀ c ∈ name.toList, Script.IsPlain c) : Enclosed name := by
  refine ⟨?_, ?_⟩
  · obtain ⟨c, cs, hname⟩ := List.exists_cons_of_ne_nil hnone
    exact ⟨c, cs, hname, (hplain c (by simp [hname])).1⟩
  · obtain ⟨cs, c, hname⟩ := List.eq_nil_or_concat name.toList |>.resolve_left hnone
    rw [List.concat_eq_append] at hname
    exact ⟨cs, c, hname, (hplain c (by simp [hname])).2⟩

theorem stop_le_of_slice {inside : String} (h : slice? text s = some inside) :
    s.stop ≤ byteLength text.toList :=
  (Span.cuts_of_text h).within

theorem shows_of_embeds (h : Embeds source text k) : Shows source text k := by
  intro s inside hslice _
  rw [Candidate.slice?_shift h (stop_le_of_slice hslice), hslice]

/-- A range of the text between parentheses that ends with neither of them is one of the text. -/
theorem slice?_parenthesized {inside : String} (h : slice? ("(" ++ text ++ ")") s = some inside)
    (hinside : Enclosed inside) : ∃ t : Span, s = t.shift 1 ∧ slice? text t = some inside := by
  obtain ⟨cs, hslice, rfl⟩ := Option.map_eq_some_iff.mp h
  obtain ⟨⟨first, tail, hfirst, hopen⟩, ⟨front, last, hlast, hclose⟩⟩ := hinside
  rw [String.toList_ofList] at hfirst hlast
  obtain ⟨before, after, hsplit, hstart, hstop⟩ := sliceChars?_eq_some.mp hslice
  have hwhole : '(' :: (text.toList ++ [')']) = before ++ cs ++ after := by simpa using hsplit
  cases before with
  | nil =>
    rw [hfirst] at hwhole
    exact absurd (List.cons.inj hwhole).1.symm hopen
  | cons c before =>
    obtain ⟨rfl, hrest⟩ := List.cons.inj hwhole
    rcases List.eq_nil_or_concat after with rfl | ⟨after, c, rfl⟩
    · have hparen : text.toList ++ [')'] = before ++ front ++ [last] := by simpa [hlast] using hrest
      exact absurd (List.append_inj' hparen rfl).2.symm (by simpa using hclose)
    · have hparen : text.toList ++ [')'] = before ++ cs ++ after ++ [c] := by simpa using hrest
      have htext : text.toList = before ++ cs ++ after := (List.append_inj' hparen rfl).1
      have hbefore : byteLength before + 1 = s.start := by
        rw [← hstart, byteLength, show '('.utf8Size = 1 from rfl, Nat.add_comm]
      refine ⟨⟨byteLength before, byteLength before + byteLength cs⟩, ?_, ?_⟩
      · cases s
        simp only [Span.shift, Span.mk.injEq] at hbefore hstop ⊢
        omega
      · rw [slice?, sliceChars?_eq_some.mpr ⟨before, after, htext, rfl, rfl⟩]
        rfl

/-- What a range covers stands in the whole text behind what is in front of the range. -/
theorem embeds_of_slice (h : slice? source s = some text) : Embeds source text s.start := by
  obtain ⟨cs, hslice, rfl⟩ := Option.map_eq_some_iff.mp h
  obtain ⟨before, after, hsplit, hstart, -⟩ := sliceChars?_eq_some.mp hslice
  exact ⟨before, after, by rw [String.toList_ofList]; exact hsplit, hstart⟩

/-- Between braces stands what is read between parentheses. -/
theorem shows_of_braces {range : Span} (h : slice? source range.inner = some text) :
    Shows source ("(" ++ text ++ ")") range.start := by
  intro s inside hslice hinside
  obtain ⟨t, rfl, ht⟩ := slice?_parenthesized hslice hinside
  have hsource := shows_of_embeds (embeds_of_slice h) t inside ht hinside
  rwa [Span.shift_shift, Nat.add_comm]

/-! Nodes. -/

theorem Node.span_shift (k : Nat) (n : Node) : (n.shift k).span = n.span.shift k := by
  cases n with
  | declarator s name init => cases init <;> rfl
  | _ => simp [Node.map, Node.span]

/-- A sign that is no parenthesis. -/
theorem enclosed_sign {sign : String}
    (h : sign = "\"" ∨ sign = "'" ∨ sign = "`" ∨ sign = "\x7d" ∨ sign = "$\x7b") : Enclosed sign := by
  rcases h with rfl | rfl | rfl | rfl | rfl
  · exact ⟨⟨'"', [], rfl, by decide⟩, ⟨[], '"', rfl, by decide⟩⟩
  · exact ⟨⟨'\'', [], rfl, by decide⟩, ⟨[], '\'', rfl, by decide⟩⟩
  · exact ⟨⟨'`', [], rfl, by decide⟩, ⟨[], '`', rfl, by decide⟩⟩
  · exact ⟨⟨'\x7d', [], rfl, by decide⟩, ⟨[], '\x7d', rfl, by decide⟩⟩
  · exact ⟨⟨'$', ['\x7b'], rfl, by decide⟩, ⟨['$'], '\x7b', rfl, by decide⟩⟩

variable {opening : String} {start stop : Nat} {chunks : List Chunk} {expressions : List Node} {n : Node}

theorem Tiled.texts (hopening : Enclosed opening) (h : Tiled text stop opening start chunks expressions) :
    ∀ chunk ∈ chunks, ∃ inside, slice? text chunk.span = some inside ∧ Enclosed inside := by
  induction h with
  | last hslice =>
    exact List.forall_mem_singleton.mpr ⟨_, hslice, hopening.delimited (enclosed_sign (by simp)) _⟩
  | next inside hslice _ _ _ ih =>
    exact List.forall_mem_cons.mpr ⟨⟨_, hslice, hopening.delimited (enclosed_sign (by simp)) _⟩,
      ih (enclosed_sign (by simp))⟩

theorem Tiled.shift (hshows : Shows source text k) (hopening : Enclosed opening)
    (h : Tiled text stop opening start chunks expressions) : Tiled source (stop + k) opening (start + k)
      (chunks.map (Chunk.shift k)) (expressions.map (Node.shift k)) := by
  induction h with
  | last hslice =>
    exact .last (hshows _ _ hslice (hopening.delimited (enclosed_sign (by simp)) _))
  | @next opening raw start inside e chunks expressions hslice hforward hwithin _ ih =>
    rw [List.map_cons, List.map_cons]
    refine .next (inside.shift k) ?_ (Nat.add_le_add_right hforward k) ?_
      (ih (enclosed_sign (by simp)))
    · exact hshows _ _ hslice (hopening.delimited (enclosed_sign (by simp)) _)
    · rcases hwithin with hwithin | ⟨hroom, rfl⟩
      · rw [Node.span_shift]
        exact .inl ⟨Nat.add_le_add_right hwithin.1 k, Nat.add_le_add_right hwithin.2 k⟩
      · refine .inr ⟨Nat.le_add_right_of_le hroom, ?_⟩
        simp only [Node.map, Span.shift, Node.other.injEq, Span.mk.injEq]
        omega

namespace Node.Spelled

variable (h : n.Spelled text)
include h

/-- The texts that are read from a node are none of the parentheses around it. -/
theorem texts : ∀ s ∈ n.texts, ∃ inside, slice? text s = some inside ∧ Enclosed inside := by
  cases n with
  | literal s =>
    obtain ⟨quote, body, hquote, hslice⟩ := h
    have hsign : Enclosed quote := enclosed_sign (by tauto)
    exact List.forall_mem_singleton.mpr ⟨_, hslice, hsign.delimited hsign body⟩
  | identifier s name =>
    obtain ⟨hslice, hnone, hplain⟩ := h
    exact List.forall_mem_singleton.mpr ⟨name, hslice, enclosed_of_plain hnone hplain⟩
  | template s chunks expressions =>
    exact List.forall_mem_map.mpr (Tiled.texts (enclosed_sign (by simp)) h)
  | _ => simp [Node.texts]

theorem shift (hshows : Shows source text k) : (n.shift k).Spelled source := by
  cases n with
  | literal s =>
    obtain ⟨quote, body, hquote, hslice⟩ := h
    have hsign : Enclosed quote := enclosed_sign (by tauto)
    exact ⟨quote, body, hquote, hshows _ _ hslice (hsign.delimited hsign body)⟩
  | identifier s name =>
    obtain ⟨hslice, hnone, hplain⟩ := h
    exact ⟨hshows _ _ hslice (enclosed_of_plain hnone hplain), hnone, hplain⟩
  | template s chunks expressions =>
    have hshift := Tiled.shift hshows (enclosed_sign (by simp)) h
    rwa [← Node.mapAll_eq_map] at hshift
  | declarator s name init => cases init <;> trivial
  | _ => trivial

end Node.Spelled

theorem mem_inside_shift {m : Node} : m ∈ (n.shift k).inside ↔ ∃ m' ∈ n.inside, m'.shift k = m := by
  rw [Node.inside_map, List.mem_map]

namespace Source

open Script

variable (g : Grammars) {dialect : Dialect}

/-! Scripts. -/

theorem scriptRoots_shift (text : List Char) (offset : Nat) (dialect : Dialect) :
    scriptRoots g text offset dialect = (scriptRoots g text 0 dialect).map (Node.shift offset) := by
  have hmoved := (carries_offset text offset).forestRoots_moved (B := fun _ => True) (fun _ _ _ _ => trivial)
    (fun _ => trivial) (g.read dialect text) fun _ _ => trivial
  have hroots := hmoved.eq
  rwa [Tree.mapAll_id, Node.mapAll_eq_map] at hroots

theorem scriptRoots_stems (text : List Char) (dialect : Dialect) : ∀ root ∈ scriptRoots g text 0 dialect,
    Stemming ⟨text, 0⟩ (Plains (Tree.Among (g.read dialect text))) root :=
  forestRoots_stems (Tree.among_closed _) _ fun _ => .here

/-! Expressions in braces. -/

theorem braceExpression?_shift (text : List Char) (start : Nat) (dialect : Dialect) :
    braceExpression? g text (start + 1) dialect =
      (braceExpression? g text 1 dialect).map (Node.shift start) := by
  have hmoved := (carries_offset ('(' :: text ++ [')']) start).soleExpression_moved (B := fun _ => True)
    (fun _ => trivial) fun (t : Tree) (_ : t ∈ g.read dialect ('(' :: text ++ [')'])) => trivial
  rw [Tree.mapAll_id] at hmoved
  rw [braceExpression?, braceExpression?, Nat.add_sub_cancel, Nat.sub_self]
  generalize soleExpression _ _ = e, soleExpression ⟨_, start⟩ _ = e' at hmoved ⊢
  cases hmoved with
  | none => rfl
  | some h => rw [h.eq, Option.map_some]

theorem ofList_parenthesized (text : List Char) :
    String.ofList ('(' :: text ++ [')']) = "(" ++ String.ofList text ++ ")" := by
  rw [← String.toList_inj]
  simp

theorem braceExpression?_stems (text : List Char) (dialect : Dialect) : ∀ e ∈ braceExpression? g text 1 dialect,
    Stemming ⟨'(' :: text ++ [')'], 0⟩ (Plains (Tree.Among (g.read dialect ('(' :: text ++ [')'])))) e :=
  soleExpression_stems (Tree.among_closed _) fun _ => .here

/-- For every library, text and offset the roots are those of the text alone, moved by the offset with all
names and texts of chunks unchanged. So what a script in a document is lowered to is what it is lowered to
alone, and at the place of every literal, name and chunk that lies in the script the whole document reads
the same as the script alone. An expression in braces is lowered to what it is lowered to between
parentheses alone, one byte in front of its place, and at every literal, name and chunk between the
parentheses these read the same as the expression itself and as the document. All of them lie there in
trees that are spelled without errors. -/
theorem lowering_embeds :
    (∀ text offset dialect, scriptRoots g text offset dialect =
      (scriptRoots g text 0 dialect).map (Node.shift offset)) ∧
    (∀ source content text dialect, slice? source content = some text →
      embeddedRoots g source.toList (.script content dialect) =
        (scriptRoots g text.toList 0 dialect).map (Node.shift content.start) ∧
      ∀ root ∈ scriptRoots g text.toList 0 dialect, ∀ n ∈ root.inside, ∀ s ∈ n.texts,
        (s.stop ≤ byteLength text.toList → slice? source (s.shift content.start) = slice? text s) ∧
        (Readable text.toList (g.read dialect text.toList) → ∃ inside, slice? text s = some inside ∧
          slice? source (s.shift content.start) = some inside)) ∧
    (∀ source range text dialect, slice? source range.inner = some text →
      part g source.toList dialect (.braces range) = .mustache range
        (((braceExpression? g text.toList 1 dialect).map (Node.shift range.start)).getD (.other range.inner)) ∧
      ∀ e, braceExpression? g text.toList 1 dialect = some e → ∀ n ∈ e.inside, ∀ s ∈ n.texts,
        (∀ t : Span, s = t.shift 1 → t.stop ≤ byteLength text.toList →
          slice? ("(" ++ text ++ ")") s = slice? text t ∧ slice? source (s.shift range.start) = slice? text t) ∧
        (Readable ('(' :: text.toList ++ [')']) (g.read dialect ('(' :: text.toList ++ [')'])) →
          ∃ t inside, s = t.shift 1 ∧ slice? text t = some inside ∧
            slice? ("(" ++ text ++ ")") s = some inside ∧ slice? source (s.shift range.start) = some inside)) := by
  refine ⟨scriptRoots_shift g, ?_, ?_⟩
  · intro source content text dialect hslice
    have hembeds : Embeds source text content.start := embeds_of_slice hslice
    have hcs := sliceChars?_of_slice? hslice
    refine ⟨?_, fun root hroot n hn s hs => ⟨fun hstop => Candidate.slice?_shift hembeds hstop, fun hread => ?_⟩⟩
    · simp only [embeddedRoots, hcs]
      exact scriptRoots_shift g _ _ _
    · have hspelled : n.Spelled text := by
        have hspelled := (scriptRoots_stems g text.toList dialect root hroot n hn).spelled hread
        rwa [String.ofList_toList] at hspelled
      obtain ⟨inside, hinside, henclosed⟩ := hspelled.texts s hs
      exact ⟨inside, hinside, shows_of_embeds hembeds s inside hinside henclosed⟩
  · intro source range text dialect hslice
    have hcs := sliceChars?_of_slice? hslice
    have hbehind : Embeds ("(" ++ text ++ ")") text 1 := ⟨['('], [')'], by simp, rfl⟩
    refine ⟨?_, fun e he n hn s hs => ⟨?_, fun hread => ?_⟩⟩
    · rw [part, hcs]
      exact congrArg (fun e => AttributePart.mustache range (e.getD (.other range.inner)))
        (braceExpression?_shift g text.toList range.start dialect)
    · rintro t rfl hstop
      refine ⟨Candidate.slice?_shift hbehind hstop, ?_⟩
      rw [Span.shift_shift, Nat.add_comm]
      exact Candidate.slice?_shift (embeds_of_slice hslice) hstop
    · have hspelled : n.Spelled ("(" ++ text ++ ")") := by
        have hspelled := (braceExpression?_stems g text.toList dialect e he n hn).spelled hread
        rwa [ofList_parenthesized, String.ofList_toList] at hspelled
      obtain ⟨inside, hinside, henclosed⟩ := hspelled.texts s hs
      obtain ⟨t, rfl, ht⟩ := slice?_parenthesized hinside henclosed
      exact ⟨t, inside, rfl, ht, hinside, shows_of_braces hslice _ inside hinside henclosed⟩

def templateCall : String := "f(`b $\x7bx\x7d a`)"

def literalCall : String := "g(\"d c\")"

def mixedDocument : String :=
  "<script>" ++ templateCall ++ "</script><p class=\x7b" ++ literalCall ++ "\x7d></p>"

set_option maxRecDepth 4096 in
theorem templateCall_roots : scriptRoots builtIn templateCall.toList 0 .javaScript =
    [.call ⟨0, 13⟩ (.name "f") [.template ⟨2, 12⟩ [⟨⟨2, 7⟩, "b "⟩, ⟨⟨8, 12⟩, " a"⟩]
      [.identifier ⟨7, 8⟩ "x"]]] := rfl

set_option maxRecDepth 4096 in
theorem literalCall_braced : braceExpression? builtIn literalCall.toList 1 .javaScript =
    some (.call ⟨1, 9⟩ (.name "g") [.literal ⟨3, 8⟩]) := rfl

/-- The first chunk of the template and the literal read the same where they stand in the document. -/
theorem mixedDocument_embeds :
    slice? mixedDocument ⟨8, 21⟩ = some templateCall ∧
    embeddedRoots builtIn mixedDocument.toList (.script ⟨8, 21⟩ .javaScript) =
      (scriptRoots builtIn templateCall.toList 0 .javaScript).map (Node.shift 8) ∧
    (∃ inside, slice? templateCall ⟨2, 7⟩ = some inside ∧ slice? mixedDocument ⟨10, 15⟩ = some inside) ∧
    slice? mixedDocument (Span.inner ⟨39, 49⟩) = some literalCall ∧
    part builtIn mixedDocument.toList .javaScript (.braces ⟨39, 49⟩) =
      .mustache ⟨39, 49⟩ (.call ⟨40, 48⟩ (.name "g") [.literal ⟨42, 47⟩]) ∧
    (∃ inside, slice? literalCall ⟨2, 7⟩ = some inside ∧ slice? ("(" ++ literalCall ++ ")") ⟨3, 8⟩ = some inside ∧
      slice? mixedDocument ⟨42, 47⟩ = some inside) := by
  have hscript : slice? mixedDocument ⟨8, 21⟩ = some templateCall := by decide +kernel
  have hbraces : slice? mixedDocument (Span.inner ⟨39, 49⟩) = some literalCall := by decide +kernel
  obtain ⟨hroots, htexts⟩ := (lowering_embeds builtIn).2.1 mixedDocument ⟨8, 21⟩ templateCall .javaScript hscript
  obtain ⟨hpart, hread⟩ := (lowering_embeds builtIn).2.2 mixedDocument ⟨39, 49⟩ literalCall .javaScript hbraces
  rw [templateCall_roots] at htexts
  rw [literalCall_braced] at hpart
  refine ⟨hscript, hroots, ?_, hbraces, hpart, ?_⟩
  · have hchunk := htexts _ List.mem_cons_self (.template ⟨2, 12⟩ [⟨⟨2, 7⟩, "b "⟩, ⟨⟨8, 12⟩, " a"⟩]
      [.identifier ⟨7, 8⟩ "x"]) (List.mem_cons_of_mem _ List.mem_cons_self) ⟨2, 7⟩ List.mem_cons_self
    exact hchunk.2 (builtIn_readable _ _)
  · have hliteral := hread _ literalCall_braced (.literal ⟨3, 8⟩)
      (List.mem_cons_of_mem _ List.mem_cons_self) ⟨3, 8⟩ List.mem_cons_self
    obtain ⟨t, inside, hshift, hexpression, hwrapped, hsource⟩ := hliteral.2 (builtIn_readable _ _)
    obtain rfl : t = ⟨2, 7⟩ := by
      cases t
      simp only [Span.shift, Span.mk.injEq] at hshift ⊢
      omega
    exact ⟨inside, hexpression, hwrapped, hsource⟩


end Source

end ClassSort

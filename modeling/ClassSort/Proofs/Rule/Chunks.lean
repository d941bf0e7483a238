import ClassSort.Proofs.ClassList.Context
import ClassSort.Proofs.Rule.Applicable
import ClassSort.Proofs.Source.Embedded

/-!
The chunks of a template are cut out at their delimiters. The text of a chunk is searched for and not
counted off, so it could be found too early, in place of the delimiter in front of it. Then it would stand
again one character further, and all its characters would be the same one; but between two classes stands a
separator, which no delimiter is.
-/

namespace ClassSort

open Candidate ClassList

structure Delimited (source : String) (chunk : Chunk) (opening closing : String) : Prop where
  text : slice? source chunk.span = some (opening ++ chunk.raw ++ closing)
  split : 2 ≤ (parse chunk.raw).tokens.length →
    splitTemplate? (opening ++ chunk.raw ++ closing) chunk.raw = some (opening, chunk.raw, closing)
  found : ofChunk source chunk = keep ⟨chunk.span, opening, chunk.raw, closing⟩
  fixed : ∀ orders removeDuplicates, ∀ c ∈ ofChunk source chunk, ∀ v,
    Sorting.violation? orders removeDuplicates c = some v → ∃ front back : String,
      source = front ++ (opening ++ chunk.raw ++ closing) ++ back ∧
      byteLength front.toList = chunk.span.start ∧ applyViolations source [v] = .ok
        ⟨front ++ (opening ++ Sorting.rebuilt orders removeDuplicates chunk.raw ++ closing) ++ back, 1, 0⟩

/-! One chunk. -/

/-- A text that stands in front of itself, one character too early, repeats that character. -/
theorem eq_of_prefix_cons {raw rest : List Char} {c : Char} (h : raw <+: c :: raw ++ rest) :
    ∀ d ∈ raw, d = c := by
  induction raw generalizing c with
  | nil => simp
  | cons d raw ih =>
    obtain ⟨rfl, hraw⟩ := List.cons_prefix_cons.mp h
    exact List.forall_mem_cons.mpr ⟨rfl, ih hraw⟩

theorem firstCut_delimited {raw : List Char} {c : Char} (h : ∃ d ∈ raw, d ≠ c) (closing : List Char) :
    FirstCut raw (c :: raw ++ closing) [c] closing where
  split := rfl
  first := by
    intro before after htext
    cases before with
    | nil =>
      obtain ⟨d, hd, hne⟩ := h
      exact absurd (eq_of_prefix_cons ⟨after, htext.symm⟩ d hd) hne
    | cons d before => exact Nat.le_add_left 1 before.length

/-- Two classes are parted. -/
theorem exists_separator {text : String} (h : 2 ≤ (parse text).tokens.length) :
    ∃ c ∈ text.toList, isSeparator c = true := by
  refine Classical.byContradiction fun hnone => ?_
  have hclass : ∀ c ∈ text.toList, isSeparator c = false := by simpa using hnone
  rw [parse_tokens, List.length_map] at h
  by_cases hempty : text.toList = []
  · rw [hempty] at h
    exact absurd h (by decide)
  · rw [Layout.classesOf_of_isClass ⟨hempty, hclass⟩] at h
    exact absurd h (by simp)

theorem splitTemplate?_delimited {opening raw : String} {c : Char} (hopening : opening.toList = [c])
    (hc : isSeparator c = false) (h : 2 ≤ (parse raw).tokens.length) (closing : String) :
    splitTemplate? (opening ++ raw ++ closing) raw = some (opening, raw, closing) := by
  obtain ⟨d, hd, hseparator⟩ := exists_separator h
  have hne : d ≠ c := fun heq => by simp [heq, hc] at hseparator
  refine splitTemplate?_eq_some_iff.mpr ⟨fun hraw => by simp [hraw] at hd, rfl, ?_⟩
  simpa [hopening] using firstCut_delimited ⟨d, hd, hne⟩ closing.toList

section

variable {source opening closing : String} {chunk : Chunk} {c : Char} (hopening : opening.toList = [c])
  (hc : isSeparator c = false)
  (htext : slice? source chunk.span = some (opening ++ chunk.raw ++ closing))
include hopening hc htext

theorem ofChunk_delimited : ofChunk source chunk = keep ⟨chunk.span, opening, chunk.raw, closing⟩ := by
  rw [ofChunk, htext, Option.bind_some]
  by_cases hclasses : 2 ≤ (parse chunk.raw).tokens.length
  · rw [splitTemplate?_delimited hopening hc hclasses]
  · -- with fewer classes nothing is found, wherever the text is cut
    have hfew (range : Span) (before after : String) : keep ⟨range, before, chunk.raw, after⟩ = [] := by
      have hsortable : (parse chunk.raw).isSortable = false := decide_eq_false hclasses
      simp [keep, hsortable]
    rw [hfew]
    split
    · next before body after hsplit =>
      obtain ⟨rfl, -⟩ := splitTemplate?_eq_some hsplit
      exact hfew chunk.span before after
    · rfl

theorem delimited_of_text : Delimited source chunk opening closing where
  text := htext
  split h := splitTemplate?_delimited hopening hc h closing
  found := ofChunk_delimited hopening hc htext
  fixed orders removeDuplicates d hd v hv := by
    have hcut := ofChunk_cut chunk d hd
    rw [ofChunk_delimited hopening hc htext] at hd
    obtain rfl := mem_keep hd
    obtain ⟨front, back, hsource, hstart, hstop⟩ := hcut.pieces
    obtain ⟨-, hfinding⟩ := Sorting.violation?_eq_some hv
    have happlied := applyViolations_single (v := v) hsource (by rw [hfinding, hstart])
      (by rw [hfinding, hstart, hstop])
    refine ⟨String.ofList front, String.ofList back, ?_, ?_, ?_⟩
    · rw [← String.toList_inj, hsource]
      simp
    · rw [String.toList_ofList, hstart]
    · rw [happlied, hfinding]
      simp [String.ofList_append, String.append_assoc]

end

/-! All chunks of a template. -/

variable {source : String}

theorem Tiled.delimited {stop start : Nat} {opening : String} {chunks : List Chunk} {expressions : List Node}
    (h : Tiled source stop opening start chunks expressions) {c : Char} (hopening : opening.toList = [c])
    (hc : isSeparator c = false) : ∀ before chunk after, chunks = before ++ chunk :: after →
      Delimited source chunk (if before = [] then opening else "\x7d")
        (if after = [] then "`" else "$\x7b") := by
  induction h generalizing c with
  | last hslice =>
    intro before chunk after hsplit
    obtain ⟨rfl, rfl, rfl⟩ : before = [] ∧ chunk = _ ∧ after = [] := by
      simpa [List.append_eq_singleton_iff, eq_comm] using hsplit
    exact delimited_of_text hopening hc hslice
  | @next opening raw start inside e chunks expressions hslice _ _ hrest ih =>
    intro before chunk after hsplit
    cases before with
    | nil =>
      obtain ⟨rfl, rfl⟩ := List.cons.inj hsplit
      have hmore : chunks ≠ [] := List.ne_nil_of_length_eq_add_one hrest.length
      rw [if_pos rfl, if_neg hmore]
      exact delimited_of_text hopening hc hslice
    | cons _ before =>
      have hdelimited := ih (c := '\x7d') rfl rfl before chunk after (List.cons.inj hsplit).2
      rw [ite_self] at hdelimited
      simpa using hdelimited

/-! All templates of a file. -/

namespace Source

open Script

variable (g : Grammars) {dialect : Dialect} {n : Node} {kind : FileKind}

/-- The node is what a template of the text is lowered to, moved by `k` bytes to where the text stands. -/
structure TemplateOf (source : String) (r : Passage) (t : Tree) (k : Nat) (n : Node) : Prop where
  found : Tree.Among (g.read r.1 r.2) t
  form : t.form = .template
  shown : Shows source (String.ofList r.2) k
  eq : n = (expression ⟨r.2, 0⟩ t.plain).shift k

def IsTaken (source : String) (rs : List Passage) (n : Node) : Prop :=
  ∀ s chunks expressions, n = .template s chunks expressions →
    ∃ r ∈ rs, ∃ t k, TemplateOf g source r t k n

theorem isTaken_other (rs : List Passage) (s : Span) : ∀ n ∈ (Node.other s).inside, IsTaken g source rs n := by
  simp [IsTaken, Node.inside, Node.descendants]

theorem IsTaken.mono {rs rs' : List Passage} (h : IsTaken g source rs n) (hsub : rs ⊆ rs') :
    IsTaken g source rs' n := by
  intro s chunks expressions hn
  obtain ⟨r, hr, htaken⟩ := h s chunks expressions hn
  exact ⟨r, hsub hr, htaken⟩

theorem isTaken_of_stemming {r : Passage} {k : Nat} {root : Node} (hshown : Shows source (String.ofList r.2) k)
    (h : Stemming ⟨r.2, 0⟩ (Plains (Tree.Among (g.read r.1 r.2))) root) :
    ∀ n ∈ (root.shift k).inside, IsTaken g source [r] n := by
  intro n hn s chunks expressions htemplate
  obtain ⟨m, hm, rfl⟩ := mem_inside_shift.mp hn
  have hstems := h m hm
  cases m with
  | template s chunks expressions =>
    obtain ⟨_, ⟨t, ht, rfl⟩, hform, rfl, rfl, rfl⟩ := hstems
    rw [Tree.plain_form] at hform
    refine ⟨r, List.mem_singleton_self r, t, k, ⟨ht, hform, hshown, ?_⟩⟩
    obtain ⟨form, s, children⟩ := t
    obtain rfl : form = .template := hform
    rw [Tree.plain, expression]
    rfl
  | declarator s name init => cases init <;> cases htemplate
  | _ => cases htemplate

theorem scriptRoots_taken {text : List Char} {k : Nat} (hshown : Shows source (String.ofList text) k) :
    ∀ root ∈ scriptRoots g text k dialect, ∀ n ∈ root.inside, IsTaken g source [(dialect, text)] n := by
  rw [scriptRoots_shift]
  exact List.forall_mem_map.mpr fun root hroot =>
    isTaken_of_stemming g hshown (scriptRoots_stems g text dialect root hroot)

theorem embeddedRoots_taken (f : Markup.Finding) : ∀ root ∈ embeddedRoots g source.toList f,
    ∀ n ∈ root.inside, IsTaken g source (embeddedReadings source.toList f) n := by
  cases f with
  | script content dialect =>
    cases hslice : sliceChars? source.toList content with
    | none => simp [embeddedRoots, hslice]
    | some text =>
      have hshown : Shows source (String.ofList text) content.start :=
        shows_of_embeds (embeds_of_slice (by rw [slice?, hslice]; rfl))
      simpa [embeddedRoots, embeddedReadings, hslice] using scriptRoots_taken g hshown
  | _ => simp [embeddedRoots]

/-- Between the parentheses stands what stands between the braces, or nothing. -/
theorem shows_between (range : Span) : Shows source
    (String.ofList ('(' :: (sliceChars? source.toList range.inner).getD [] ++ [')'])) range.start := by
  rw [ofList_parenthesized]
  cases hslice : sliceChars? source.toList range.inner with
  | none =>
    intro s inside hinside henclosed
    obtain ⟨t, -, ht⟩ := slice?_parenthesized hinside henclosed
    obtain ⟨c, cs, hfirst, -⟩ := henclosed.first
    have hwithin := sliceChars?_of_slice? ht
    obtain ⟨before, after, hempty, -, -⟩ := sliceChars?_eq_some.mp hwithin
    simp [hfirst] at hempty
  | some text => exact shows_of_braces (by rw [slice?, hslice]; rfl)

theorem braces_taken (range : Span) : ∀ n ∈ ((braceExpression? g ((sliceChars? source.toList range.inner).getD [])
    range.inner.start dialect).getD (.other range.inner)).inside,
      IsTaken g source (partReadings source.toList dialect (.braces range)) n := by
  rw [show range.inner.start = range.start + 1 from rfl, braceExpression?_shift]
  cases he : braceExpression? g ((sliceChars? source.toList range.inner).getD []) 1 dialect with
  | none => exact isTaken_other g _ _
  | some e => exact isTaken_of_stemming g (shows_between range) (braceExpression?_stems g _ dialect e he)

theorem parts_taken (ps : List Markup.Part) : ∀ n ∈ AttributePart.allInside (ps.map (part g source.toList dialect)),
    IsTaken g source (ps.flatMap (partReadings source.toList dialect)) n := by
  induction ps with
  | nil => simp [AttributePart.allInside]
  | cons p ps ih =>
    have hrest : ∀ n ∈ AttributePart.allInside (ps.map (part g source.toList dialect)),
        IsTaken g source ((p :: ps).flatMap (partReadings source.toList dialect)) n :=
      fun n hn => (ih n hn).mono g (List.subset_append_right _ _)
    cases p with
    | text s =>
      rw [List.map_cons, part, AttributePart.allInside]
      exact hrest
    | braces range =>
      rw [List.map_cons, part, AttributePart.allInside]
      refine List.forall_mem_append.mpr ⟨fun n hn => ?_, hrest⟩
      exact (braces_taken g range n hn).mono g (List.subset_append_left _ _)

theorem attribute_taken (f : Markup.Finding) : ∀ root ∈ attribute? g source.toList dialect f, ∀ n ∈ root.inside,
    IsTaken g source (attributeReadings source.toList dialect f) n := by
  cases f with
  | classes v =>
    rintro root ⟨⟩
    rw [Node.inside, Node.descendants]
    exact List.forall_mem_cons.mpr ⟨by simp [IsTaken], parts_taken g v.parts⟩
  | _ => simp [attribute?]

theorem roots_taken (source : String) (kind : FileKind) : ∀ root ∈ roots g source kind, ∀ n ∈ root.inside,
    IsTaken g source (readings source kind) n := by
  unfold roots readings
  split
  · have hself : Shows source (String.ofList source.toList) 0 :=
      shows_of_embeds ⟨[], [], by simp, rfl⟩
    exact scriptRoots_taken g hself
  · refine List.forall_mem_append.mpr ⟨?_, ?_⟩
    · intro root hroot n hn
      obtain ⟨f, hf, hroot⟩ := List.mem_flatMap.mp hroot
      refine (embeddedRoots_taken g f root hroot n hn).mono g fun r hr => List.mem_append_left _ ?_
      exact List.mem_flatMap_of_mem hf hr
    · intro root hroot n hn
      obtain ⟨f, hf, hroot⟩ := List.mem_filterMap.mp hroot
      refine (attribute_taken g f root hroot n hn).mono g fun r hr => List.mem_append_right _ ?_
      exact List.mem_flatMap_of_mem hf hr

/-- Every template of a file is that of a tree, and has one chunk more than expressions. If the tree is a
template literal, its chunks and the insides of its substitutions cover it in turns, and each chunk is cut
out at its delimiters: the backtick or the brace in front of it, and the opening of the next substitution
or the backtick behind it. A fix keeps both. -/
theorem template_chunks (source : String) (kind : FileKind) : ∀ root ∈ roots g source kind,
    ∀ s chunks expressions, Node.template s chunks expressions ∈ root.inside →
      chunks.length = expressions.length + 1 ∧
      ∃ r ∈ readings source kind, ∃ t k, TemplateOf g source r t k (.template s chunks expressions) ∧
        (IsTemplate r.2 t →
          Tiled source s.stop "`" s.start chunks expressions ∧
          ∀ before chunk after, chunks = before ++ chunk :: after →
            Delimited source chunk (if before = [] then "`" else "\x7d")
              (if after = [] then "`" else "$\x7b")) := by
  intro root hroot s chunks expressions htemplate
  obtain ⟨r, hr, t, k, htaken⟩ := roots_taken g source kind root hroot _ htemplate s chunks expressions rfl
  have heq := htaken.eq
  have hform := htaken.form
  obtain ⟨form, span, children⟩ := t
  obtain rfl : form = .template := hform
  simp only [Tree.plain, expression, Node.map, Node.template.injEq, Origin.place, Span.shift_zero,
    Node.mapAll_eq_map] at heq
  obtain ⟨rfl, rfl, rfl⟩ := heq
  refine ⟨?_, r, hr, _, k, htaken, fun ht => ?_⟩
  · rw [List.length_map, List.length_map, chunks_length]
  · have htiled := ht.tiled.shift htaken.shown (enclosed_sign (by simp))
    exact ⟨htiled, htiled.delimited rfl rfl⟩

def bracedCall : String := "f(`$\x7bx\x7d\x7d b a`)"

set_option maxRecDepth 4096 in
theorem bracedCall_roots : roots builtIn bracedCall .javaScript =
    [.call ⟨0, 14⟩ (.name "f") [.template ⟨2, 13⟩ [⟨⟨2, 5⟩, ""⟩, ⟨⟨6, 13⟩, "\x7d b a"⟩]
      [.identifier ⟨5, 6⟩ "x"]]] := rfl

def bracedFinding : Violation := ⟨Sorting.rule, ⟨6, 13⟩, "\x7d\x7d a b`", Sorting.message⟩

/-- The brace that ends the substitution is not taken for the first class, and the fix keeps it. -/
theorem bracedCall_chunks :
    slice? bracedCall ⟨6, 13⟩ = some ("\x7d" ++ "\x7d b a" ++ "`") ∧
    splitTemplate? ("\x7d" ++ "\x7d b a" ++ "`") "\x7d b a" = some ("\x7d", "\x7d b a", "`") ∧
    ∃ front back : String, bracedCall = front ++ ("\x7d" ++ "\x7d b a" ++ "`") ++ back ∧
      byteLength front.toList = 6 ∧ applyViolations bracedCall [bracedFinding] = .ok ⟨front ++ ("\x7d" ++
        Sorting.rebuilt [("a", some 1), ("b", some 2)] false "\x7d b a" ++ "`") ++ back, 1, 0⟩ := by
  obtain ⟨-, r, -, t, k, htaken, hdelimited⟩ := template_chunks builtIn bracedCall .javaScript _
    (by rw [bracedCall_roots]; exact List.mem_cons_self) _ _ _ (List.mem_cons_of_mem _ List.mem_cons_self)
  obtain ⟨-, hchunks⟩ := hdelimited ((builtIn_readable r.1 r.2 t htaken.found).isTemplate htaken.form)
  have hdelimited := hchunks [⟨⟨2, 5⟩, ""⟩] ⟨⟨6, 13⟩, "\x7d b a"⟩ [] rfl
  have hfound : ⟨⟨6, 13⟩, "\x7d", "\x7d b a", "`"⟩ ∈ ofChunk bracedCall ⟨⟨6, 13⟩, "\x7d b a"⟩ := by
    decide +kernel
  have hfinding : Sorting.violation? [("a", some 1), ("b", some 2)] false
      ⟨⟨6, 13⟩, "\x7d", "\x7d b a", "`"⟩ = some bracedFinding := by decide +kernel
  exact ⟨hdelimited.text, hdelimited.split (by decide +kernel),
    hdelimited.fixed _ _ _ hfound _ hfinding⟩

end Source

end ClassSort

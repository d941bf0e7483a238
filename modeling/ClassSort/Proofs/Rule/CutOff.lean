import ClassSort.Proofs.Checker.Passes
import ClassSort.Proofs.Rule.SortedText
import ClassSort.Proofs.Source.Readings
import ClassSort.Proofs.Source.Texts
import ClassSort.Proofs.Text.Trim
import ClassSort.Script.Parse

/-!
A document that ends inside a quoted class value, or right behind its quote. The grouping rule takes
the last byte of the value for the closing quote and leaves it out of the range that it replaces,
though not out of the replacement. Where there is no closing quote that byte may be a character of the
last class. Then each pass makes the value longer by that character, and as many passes are made as
there may be; in all other cases there is nothing to fix.
-/

namespace ClassSort

open Markup

def IsPlain (c : Char) : Prop := isBlank c = false ∧ c ≠ '"' ∧ c ≠ '\x7b'

structure IsPlainClass (word : List Char) (last : Char) : Prop where
  plain : ∀ c ∈ word, IsPlain c
  ends : word.getLast? = some last

theorem IsPlainClass.grow {word : List Char} {last : Char} (h : IsPlainClass word last) :
    IsPlainClass (word ++ [last]) last where
  plain c hc := by
    rcases List.mem_append.mp hc with hc | hc
    · exact h.plain c hc
    · rw [List.mem_singleton.mp hc]
      exact h.plain last (List.mem_of_getLast? h.ends)
  ends := by simp

namespace CutOff

def opening : List Char := ['<', 'p', ' ', 'c', 'l', 'a', 's', 's', '=', '"']

def content (word : List Char) : List Char := '\x7b' :: 'x' :: '\x7d' :: ' ' :: word

def ending (closed : Bool) : List Char := if closed then ['"'] else []

end CutOff

open CutOff

/-- A document that ends inside a class value or right behind it. -/
def cutOff (word : List Char) (closed : Bool) : String :=
  String.ofList (opening ++ (content word ++ ending closed))

namespace CutOff

variable {word : List Char} {last : Char} {closed : Bool} {g : Script.Grammars}

@[simp] theorem content_append (front back : List Char) :
    content (front ++ back) = content front ++ back := rfl

@[simp] theorem length_content (word : List Char) : (content word).length = word.length + 4 := rfl

@[simp] theorem ending_false : ending false = [] := rfl

theorem byteLength_content (word : List Char) : byteLength (content word) = 4 + byteLength word := by
  have hopen : byteLength ['\x7b', 'x', '\x7d', ' '] = 4 := rfl
  rw [← hopen, ← byteLength_append]
  rfl

theorem next_ending (closed : Bool) (pos : Nat) :
    (Point.mk (ending closed) pos).next = ⟨[], pos + byteLength (ending closed)⟩ := by
  cases closed <;> rfl

theorem quotedParts_plain (h : ∀ c ∈ word, c ≠ '"' ∧ c ≠ '\x7b') {fuel start pos : Nat}
    (hfuel : word.length ≤ fuel) : quotedParts true '"' fuel start ⟨word ++ ending closed, pos⟩ =
      (textPart start (pos + byteLength word), ⟨ending closed, pos + byteLength word⟩) := by
  induction word generalizing fuel pos with
  | nil => cases fuel <;> cases closed <;> rfl
  | cons c word ih =>
    obtain ⟨hc, hword⟩ := List.forall_mem_cons.mp h
    cases fuel with
    | zero => simp at hfuel
    | succ fuel =>
      have hrest : quotedParts true '"' fuel start ⟨word ++ ending closed, pos + c.utf8Size⟩ = _ :=
        ih hword (Nat.le_of_succ_le_succ hfuel)
      rw [quotedParts, List.cons_append]
      simp only [beq_iff_eq, hc.1, hc.2, if_false, Bool.and_true, Point.next]
      rw [hrest, byteLength, Nat.add_assoc]

def value (word : List Char) (closed : Bool) : Value :=
  ⟨⟨9, 14 + byteLength word + byteLength (ending closed)⟩, true,
    [.braces ⟨10, 13⟩, .text ⟨13, 14 + byteLength word⟩]⟩

theorem readQuoted_cutOff (h : ∀ c ∈ word, c ≠ '"' ∧ c ≠ '\x7b') :
    readQuoted true '"' ⟨'"' :: (content word ++ ending closed), 9⟩ =
      (value word closed, ⟨[], (value word closed).span.stop⟩) := by
  have hrest : quotedParts true '"' ((word ++ ending closed).length + 3) 13
      ⟨' ' :: word ++ ending closed, 13⟩ =
      ([.text ⟨13, 14 + byteLength word⟩], ⟨ending closed, 14 + byteLength word⟩) := by
    have hspace : ∀ c ∈ ' ' :: word, c ≠ '"' ∧ c ≠ '\x7b' :=
      List.forall_mem_cons.mpr ⟨by decide, h⟩
    rw [quotedParts_plain hspace (by simp; omega)]
    have hlength : 13 + byteLength (' ' :: word) = 14 + byteLength word := by
      simp only [byteLength, show ' '.utf8Size = 1 from rfl]
      omega
    rw [hlength, textPart, if_pos (by omega)]
  have hparts : quotedParts true '"' ((word ++ ending closed).length + 4) 10
      ⟨content word ++ ending closed, 10⟩ =
      ((value word closed).parts, ⟨ending closed, 14 + byteLength word⟩) := by
    have hstep : quotedParts true '"' ((word ++ ending closed).length + 4) 10
        ⟨content word ++ ending closed, 10⟩ =
        (quotedParts true '"' ((word ++ ending closed).length + 3) 13
          ⟨' ' :: word ++ ending closed, 13⟩).map (.braces ⟨10, 13⟩ :: ·) id := rfl
    rw [hstep, hrest]
    rfl
  have hread : readQuoted true '"' ⟨'"' :: (content word ++ ending closed), 9⟩ =
      let inside := quotedParts true '"' ((word ++ ending closed).length + 4) 10
        ⟨content word ++ ending closed, 10⟩;
      (⟨⟨9, inside.2.next.pos⟩, true, inside.1⟩, inside.2.next) := rfl
  rw [hread, hparts]
  simp only [next_ending]
  rfl

theorem toList_cutOff (word : List Char) (closed : Bool) :
    (cutOff word closed).toList = opening ++ (content word ++ ending closed) := String.toList_ofList

theorem readAttribute_cutOff (cs : List Char) :
    readAttribute true ⟨'c' :: 'l' :: 'a' :: 's' :: 's' :: '=' :: '"' :: cs, 3⟩ =
      (⟨⟨3, 8⟩, "class".toList, some (readQuoted true '"' ⟨'"' :: cs, 9⟩).1⟩,
        (readQuoted true '"' ⟨'"' :: cs, 9⟩).2) := by
  rfl

theorem readAttributes_cutOff (h : ∀ c ∈ word, c ≠ '"' ∧ c ≠ '\x7b') (source : List Char)
    (fuel : Nat) (t : Tag) : readAttributes source true (fuel + 2) t
        ⟨opening.drop 2 ++ (content word ++ ending closed), 2⟩ =
      (t.add source ⟨⟨3, 8⟩, "class".toList, some (value word closed)⟩, none,
        ⟨[], (value word closed).span.stop⟩) := by
  have hattribute := readAttribute_cutOff (content word ++ ending closed)
  rw [readQuoted_cutOff h] at hattribute
  have hblanks : (Point.mk (opening.drop 2 ++ (content word ++ ending closed)) 2).skipBlanks =
      ⟨'c' :: 'l' :: 'a' :: 's' :: 's' :: '=' :: '"' :: (content word ++ ending closed), 3⟩ := rfl
  rw [readAttributes]
  dsimp only
  rw [hblanks]
  dsimp only
  rw [if_neg (by decide), if_neg (by decide), if_neg (by decide), hattribute]
  rfl

theorem readTag_cutOff (h : ∀ c ∈ word, c ≠ '"' ∧ c ≠ '\x7b') (source : List Char) :
    readTag source true ⟨opening ++ (content word ++ ending closed), 0⟩ =
      ([.classes (value word closed)], ⟨[], (value word closed).span.stop⟩) := by
  have hread (p : Point) (hp : p = ⟨opening ++ (content word ++ ending closed), 0⟩) :
      readAttributes source true ((p.next.skip isTagLetter).rest.length + 1)
        ⟨(p.next.rest.takeWhile isTagLetter).map Char.toLower, some .javaScript, none, []⟩
        (p.next.skip isTagLetter) =
      (⟨['p'], some .javaScript, none, [value word closed]⟩, none,
        ⟨[], (value word closed).span.stop⟩) := by
    subst hp
    exact readAttributes_cutOff h source ((word ++ ending closed).length + 11)
      ⟨['p'], some .javaScript, none, []⟩
  unfold readTag
  simp only [hread _ rfl]
  rfl

theorem scan_cutOff (h : ∀ c ∈ word, c ≠ '"' ∧ c ≠ '\x7b') :
    scan (cutOff word closed) true = [.classes (value word closed)] := by
  have hsplit : opening ++ (content word ++ ending closed) =
      '<' :: 'p' :: (opening.drop 2 ++ (content word ++ ending closed)) := rfl
  have hstep (source cs : List Char) (fuel : Nat) :
      scanFrom source true (fuel + 1) ⟨'<' :: 'p' :: cs, 0⟩ =
        let read := readTag source true ⟨'<' :: 'p' :: cs, 0⟩;
        read.1 ++ scanFrom source true fuel read.2 := by
    rw [scanFrom]
    rfl
  have hdone (source : List Char) (fuel pos : Nat) : scanFrom source true fuel ⟨[], pos⟩ = [] := by
    cases fuel <;> rfl
  have hlength : (opening ++ (content word ++ ending closed)).length =
      (word ++ ending closed).length + 13 + 1 := rfl
  rw [scan, Point.ofText, toList_cutOff]
  dsimp only
  rw [hlength, hsplit, hstep, ← hsplit]
  simp only [readTag_cutOff h, hdone, List.append_nil]

def ReadsName (g : Script.Grammars) : Prop :=
  ∃ s name, Source.braceExpression? g ['x'] 11 .javaScript = some (.identifier s name)

theorem readsName_builtIn : ReadsName Script.builtIn := by
  have hname : (Source.braceExpression? Script.builtIn ['x'] 11 .javaScript).any (fun
      | .identifier _ _ => true
      | _ => false) = true := by
    decide +kernel
  unfold ReadsName
  cases h : Source.braceExpression? Script.builtIn ['x'] 11 .javaScript with
  | none => simp [h] at hname
  | some n =>
    cases n with
    | identifier s name => exact ⟨s, name, rfl⟩
    | _ => simp [h] at hname

theorem slice_cutOff {before inside after : List Char} {start stop : Nat}
    (h : opening ++ (content word ++ ending closed) = before ++ inside ++ after)
    (hstart : byteLength before = start) (hstop : start + byteLength inside = stop) :
    sliceChars? (cutOff word closed).toList ⟨start, stop⟩ = some inside := by
  rw [toList_cutOff, h]
  exact sliceChars?_eq_some.mpr ⟨before, after, rfl, hstart, hstop⟩

theorem slice_braces :
    sliceChars? (cutOff word closed).toList ⟨10, 13⟩ = some ['\x7b', 'x', '\x7d'] := by
  have hcut : opening ++ (content word ++ ending closed) =
      opening ++ ['\x7b', 'x', '\x7d'] ++ (' ' :: word ++ ending closed) := rfl
  exact slice_cutOff hcut rfl rfl

theorem slice_inside : sliceChars? (cutOff word closed).toList ⟨11, 12⟩ = some ['x'] := by
  have hcut : opening ++ (content word ++ ending closed) =
      opening ++ ['\x7b'] ++ ['x'] ++ ('\x7d' :: ' ' :: word ++ ending closed) := rfl
  exact slice_cutOff hcut rfl rfl

theorem slice_text : sliceChars? (cutOff word closed).toList ⟨13, 14 + byteLength word⟩ =
    some (' ' :: word) := by
  have hcut : opening ++ (content word ++ ending closed) =
      opening ++ ['\x7b', 'x', '\x7d'] ++ ' ' :: word ++ ending closed := by simp [content]
  refine slice_cutOff hcut rfl ?_
  simp only [byteLength, show ' '.utf8Size = 1 from rfl]
  omega

theorem slice_closed :
    sliceChars? (cutOff word true).toList ⟨10, 14 + byteLength word⟩ = some (content word) := by
  have hcut : opening ++ (content word ++ ending true) =
      opening ++ content word ++ ending true := (List.append_assoc ..).symm
  refine slice_cutOff hcut rfl ?_
  rw [byteLength_content]
  omega

/-- Without a closing quote the range ends in front of the last character, if that is one byte wide. -/
theorem slice_open {front : List Char} (hlast : last.utf8Size = 1) :
    sliceChars? (cutOff (front ++ [last]) false).toList ⟨10, 13 + byteLength (front ++ [last])⟩ =
      some (content front) := by
  have hcut : opening ++ (content (front ++ [last]) ++ ending false) =
      opening ++ content front ++ [last] := by simp
  refine slice_cutOff hcut rfl ?_
  simp only [byteLength_append, byteLength_content, byteLength, hlast]
  omega

/-- And it ends inside of a wider one. -/
theorem slice_wide {front : List Char} (hlast : last.utf8Size ≠ 1) :
    sliceChars? (cutOff (front ++ [last]) false).toList ⟨10, 13 + byteLength (front ++ [last])⟩ =
      none := by
  rw [Option.eq_none_iff_forall_not_mem]
  intro inside hslice
  obtain ⟨before, after, hsplit, hstart, hstop⟩ := sliceChars?_eq_some.mp hslice
  rw [toList_cutOff, ending_false, List.append_nil] at hsplit
  have hwhole := congrArg byteLength hsplit
  have hopening : byteLength opening = 10 := rfl
  simp only [byteLength_append, byteLength_content, hopening] at hwhole
  dsimp only at hstart hstop
  have hbyte : byteLength after = 1 := by
    rw [byteLength_append] at hstop
    omega
  rcases List.eq_nil_or_concat after with rfl | ⟨initial, c, rfl⟩
  · cases hbyte
  · have hends := congrArg List.getLast? hsplit
    rw [content_append, List.concat_eq_append, ← List.append_assoc, ← List.append_assoc,
      List.getLast?_concat, List.getLast?_concat] at hends
    obtain rfl := Option.some.inj hends
    have hsize := last.utf8Size_pos
    rw [List.concat_eq_append, byteLength_append, byteLength, byteLength] at hbyte
    omega

def attributeNode (word : List Char) (closed : Bool) (s : Span) (name : String) : Node :=
  .classAttribute (value word closed).span true
    [.mustache ⟨10, 13⟩ (.identifier s name), .text ⟨13, 14 + byteLength word⟩]

theorem roots_cutOff (hx : ReadsName g) (h : ∀ c ∈ word, c ≠ '"' ∧ c ≠ '\x7b') : ∃ s name,
    Source.roots g (cutOff word closed) .svelte = [attributeNode word closed s name] := by
  obtain ⟨s, name, hexpression⟩ := hx
  refine ⟨s, name, ?_⟩
  have hbraces : Source.part g (cutOff word closed).toList .javaScript (.braces ⟨10, 13⟩) =
      .mustache ⟨10, 13⟩ (.identifier s name) := by
    have hinner : (Span.mk 10 13).inner = ⟨11, 12⟩ := rfl
    simp only [Source.part, hinner, slice_inside, Option.getD_some, hexpression]
  have hroots : Source.roots g (cutOff word closed) .svelte =
      Source.documentRoots g (cutOff word closed).toList (scan (cutOff word closed) true) := rfl
  have hattribute : Source.documentRoots g (cutOff word closed).toList [.classes (value word closed)] =
      [.classAttribute (value word closed).span true
        [Source.part g (cutOff word closed).toList .javaScript (.braces ⟨10, 13⟩),
          .text ⟨13, 14 + byteLength word⟩]] := rfl
  rw [hroots, scan_cutOff h, hattribute, hbraces]
  rfl

theorem isClass_of_plain (h : IsPlainClass word last) : ClassList.IsClass (String.ofList word) where
  ne := by
    rw [String.toList_ofList]
    rintro rfl
    cases h.ends
  none c hc := by
    rw [String.toList_ofList] at hc
    have hplain := (h.plain c hc).1
    cases hseparator : ClassList.isSeparator c with
    | false => rfl
    | true => rw [isBlank_of_isAsciiBlank hseparator] at hplain; cases hplain

/-- One class and an expression without class texts are nothing to sort. -/
theorem collect_cutOff (hx : ReadsName g) (h : IsPlainClass word last) (options : SortOptions) :
    Candidate.collect (cutOff word closed) options (Source.roots g (cutOff word closed) .svelte) =
      [] := by
  obtain ⟨s, name, hroots⟩ := roots_cutOff hx fun c hc => (h.plain c hc).2
  have hclass := isClass_of_plain h
  let l : ClassList.Layout := ⟨" ", String.ofList word, [], ""⟩
  have hproper : l.Proper := ⟨by simp [l, ClassList.isSeparator, isAsciiBlank], hclass, by simp [l], by simp [l]⟩
  have htext : String.ofList (' ' :: word) = l.text := by
    apply String.toList_inj.mp
    simp [l, ClassList.Layout.text, ClassList.Layout.restText]
  have hslice : slice? (cutOff word closed) ⟨13, 14 + byteLength word⟩ = some l.text := by
    rw [slice?, slice_text, ← htext]
    rfl
  have hsingle : (ClassList.parse l.text).isSortable = false := by
    rw [ClassList.Layout.parse_text hproper]
    rfl
  rw [hroots]
  simp [Candidate.collect, attributeNode, Candidate.ofRoot, Candidate.ofPart, Candidate.visit, Candidate.ofText,
    hslice, Candidate.keep, hsingle]

/-- The finding, whose range leaves out the last byte of the value. -/
def finding (word : List Char) : Violation :=
  ⟨Grouping.rule, ⟨10, 13 + byteLength word⟩, String.ofList (content word), Grouping.message⟩

def IsMistaken (last : Char) (closed : Bool) : Prop := closed = false ∧ last.utf8Size = 1

instance : Decidable (IsMistaken last closed) := inferInstanceAs (Decidable (_ ∧ _))

def findings (word : List Char) (last : Char) (closed : Bool) : List Violation :=
  if IsMistaken last closed then [finding word] else []

theorem grouped_cutOff (h : IsPlainClass word last) :
    Grouping.grouped [(false, "\x7bx\x7d"), (true, String.ofList (' ' :: word))] =
      String.ofList (content word) := by
  have hblank (c : Char) (hc : c ∈ word.getLast?) : isBlank c = false :=
    (h.plain c (List.mem_of_getLast? hc)).1
  have hword : word ≠ [] := by
    rintro rfl
    cases h.ends
  have hsolid : IsSolid word := ⟨hword, fun c hc => (h.plain c (List.mem_of_mem_head? hc)).1, hblank⟩
  have htext : trim (String.ofList (' ' :: word)) = String.ofList word := by
    have hspace : trimChars (' ' :: word) = trimChars word := rfl
    rw [trim, String.toList_ofList, hspace, hsolid.trimChars]
  have hne : String.ofList word ≠ "" := by
    intro hempty
    have hnil := congrArg String.toList hempty
    rw [String.toList_ofList] at hnil
    exact hword hnil
  have hjoined : "\x7bx\x7d" ++ " " ++ String.ofList word =
      String.ofList (content word) := by
    apply String.toList_inj.mp
    simp [content]
  have hwhole : IsSolid (content word) := by
    have hbraces : IsSolid ['\x7b', 'x', '\x7d'] := by
      refine ⟨by simp, ?_, ?_⟩
      · rintro c ⟨⟩
        rfl
      · rintro c ⟨⟩
        rfl
    exact hbraces.append hsolid [' ']
  have hgrouped : Grouping.grouped [(false, "\x7bx\x7d"), (true, String.ofList (' ' :: word))] =
      trim ("\x7bx\x7d" ++ " " ++
        " ".intercalate ([trim (String.ofList (' ' :: word))].filter (· != ""))) := rfl
  have hkept : [String.ofList word].filter (· != "") = [String.ofList word] := by simp [hne]
  have hsingle : " ".intercalate [String.ofList word] = String.ofList word := rfl
  rw [hgrouped, htext, hkept, hsingle, hjoined, trim, String.toList_ofList,
    hwhole.trimChars]

theorem check_grouping (h : IsPlainClass word last) (s : Span) (name : String) :
    (Grouping.check (cutOff word closed) (attributeNode word closed s name)).toList =
      findings word last closed := by
  have hgrouped := grouped_cutOff h
  obtain ⟨front, rfl⟩ := List.getLast?_eq_some_iff.mp h.ends
  have htexts : Grouping.partTexts (cutOff (front ++ [last]) closed) [.mustache ⟨10, 13⟩ (.identifier s name),
      .text ⟨13, 14 + byteLength (front ++ [last])⟩] =
        some [(false, "\x7bx\x7d"), (true, String.ofList (' ' :: (front ++ [last])))] := by
    simp only [Grouping.partTexts, AttributePart.span, slice?, slice_braces, slice_text]
    rfl
  have hsize : ¬ (value (front ++ [last]) closed).span.size < 2 := by
    have hstop : ¬ 14 + byteLength (front ++ [last]) + byteLength (ending closed) - 9 < 2 := by omega
    exact hstop
  have hclosed : (value (front ++ [last]) true).span.inner = ⟨10, 14 + byteLength (front ++ [last])⟩ := rfl
  have hopen : (value (front ++ [last]) false).span.inner = ⟨10, 13 + byteLength (front ++ [last])⟩ := by
    have hstop : 14 + byteLength (front ++ [last]) - 1 = 13 + byteLength (front ++ [last]) := by omega
    rw [← hstop]
    rfl
  cases closed with
  | true =>
    have hcurrent : slice? (cutOff (front ++ [last]) true) ⟨10, 14 + byteLength (front ++ [last])⟩ =
        some (String.ofList (content (front ++ [last]))) := by
      rw [slice?, slice_closed]
      rfl
    rw [findings, if_neg (by simp [IsMistaken])]
    generalize String.ofList (content (front ++ [last])) = new at *
    generalize String.ofList (' ' :: (front ++ [last])) = text at *
    simp [Grouping.check, attributeNode, hclosed, hcurrent, htexts, hgrouped]
  | false =>
    by_cases hlast : last.utf8Size = 1
    · have hcurrent : slice? (cutOff (front ++ [last]) false) ⟨10, 13 + byteLength (front ++ [last])⟩ =
          some (String.ofList (content front)) := by
        rw [slice?, slice_open hlast]
        rfl
      have hdiffers : String.ofList (content (front ++ [last])) ≠ String.ofList (content front) := by
        intro heq
        have hlength := congrArg (fun t => t.toList.length) heq
        simp at hlength
      rw [findings, if_pos ⟨rfl, hlast⟩, finding]
      generalize String.ofList (content (front ++ [last])) = new at *
      generalize String.ofList (content front) = current at *
      generalize String.ofList (' ' :: (front ++ [last])) = text at *
      simp [Grouping.check, attributeNode, hopen, hcurrent, htexts, hgrouped, hdiffers, hsize]
    · have hcurrent : slice? (cutOff (front ++ [last]) false) ⟨10, 13 + byteLength (front ++ [last])⟩ =
          none := by
        rw [slice?, slice_wide hlast]
        rfl
      rw [findings, if_neg (by simp [IsMistaken, hlast])]
      simp [Grouping.check, attributeNode, hopen, hcurrent]

variable {σ κ : Type} {o : Oracle σ κ} {files : FileTree} {path : Path} {c c' : Checker κ} {s s' : σ}

/-- Where there is no class text the ranking is not asked. -/
theorem sorting_none {source : String} {roots : List Node} {now : Nat}
    {found : List Violation} (hnone : Candidate.collect source c.settings.sort roots = [])
    (h : c.sortingViolations o files now path source roots s = (.ok found, c', s')) : found = [] := by
  have hcheck (r : Resolver κ) (s : σ) :
      Sorting.check o.toRanking source roots c.settings.sort r s = (.ok [], r, s) := by
    rw [Sorting.check, hnone]
    rfl
  unfold Checker.sortingViolations at h
  split at h
  · cases h
    rfl
  · split at h
    · cases h
    · next id service s₁ _ =>
      cases hresolver : service.resolvers[id]? with
      | none =>
        simp only [Service.onResolver, hresolver, Except.mapError] at h
        cases h
        rfl
      | some r =>
        simp only [Service.onResolver, hresolver, hcheck, Except.mapError] at h
        cases h
        rfl

/-- What a check finds depends neither on the settings nor on the ranking. -/
theorem check_cutOff (hx : ReadsName g) (hp : c.parser.Ready g) (h : IsPlainClass word last)
    (hpath : FileKind.ofPath? path = some .svelte) {now : Nat} {found : List Violation}
    (hcheck : c.check o files now path (cutOff word closed) s = (.ok found, c', s')) :
    found = findings word last closed ∧ c'.parser.Ready g := by
  have hplain (c : Char) (hc : c ∈ word) : c ≠ '"' ∧ c ≠ '\x7b' := (h.plain c hc).2
  have hstyles : Checker.styleViolations .svelte (cutOff word closed) = [] := by
    have hmarkup : FileKind.isMarkup .svelte = true := rfl
    have hbraces : FileKind.hasBraces .svelte = true := rfl
    rw [Checker.styleViolations, if_pos rfl, Source.styleBlocks, if_pos hmarkup, hbraces,
      scan_cutOff hplain]
    rfl
  have hgrouping : Checker.groupingViolations .svelte (cutOff word closed)
      (Source.roots g (cutOff word closed) .svelte) = findings word last closed := by
    obtain ⟨range, name, hroots⟩ := @roots_cutOff word closed g hx hplain
    rw [Checker.groupingViolations, hroots, ← check_grouping h range name]
    cases hfinding : Grouping.check (cutOff word closed) (attributeNode word closed range name) with
    | none => simp [FileKind.isMarkup, hfinding]
    | some v => simp [FileKind.isMarkup, hfinding]
  rcases Checker.check_ok hcheck with ⟨hnone, -⟩ | ⟨kind, roots, parser, sorting, hkind, hroots, hsort, rfl⟩
  · rw [hpath] at hnone
    cases hnone
  · obtain rfl : FileKind.svelte = kind := Option.some.inj (hpath.symm.trans hkind)
    obtain ⟨hparser, rfl⟩ := hp.roots_ok hroots
    have hnone := sorting_none (collect_cutOff hx h _) hsort
    rw [hnone, hstyles, hgrouping]
    refine ⟨?_, ?_⟩
    · by_cases hmistaken : IsMistaken last closed
      · rw [findings, if_pos hmistaken]
        rfl
      · rw [findings, if_neg hmistaken]
        rfl
    · rw [Checker.sortingViolations_keeps hsort]
      exact hparser

/-- The fix makes the class one character longer. -/
theorem apply_cutOff (h : IsPlainClass word last) (hlast : last.utf8Size = 1) :
    applyViolations (cutOff word false) [finding word] =
      .ok ⟨cutOff (word ++ [last]) false, 1, 0⟩ := by
  obtain ⟨front, rfl⟩ := List.getLast?_eq_some_iff.mp h.ends
  have hsource : (cutOff (front ++ [last]) false).toList =
      opening ++ (content front ++ [last]) := by
    rw [toList_cutOff]
    simp
  have hfits : (Span.mk 10 (13 + byteLength (front ++ [last]))).fits
      (cutOff (front ++ [last]) false).toList = true := by
    rw [Span.fits, slice_open hlast]
    rfl
  have hsize : (Span.mk 10 (13 + byteLength (front ++ [last]))).size =
      byteLength (content front) := by
    simp only [Span.size, byteLength_append, byteLength_content, byteLength, hlast]
    omega
  have hfront : splitAtByte (cutOff (front ++ [last]) false).toList 10 =
      some (opening, content front ++ [last]) := by
    have hcut := splitAtByte_append opening (content front ++ [last])
    have hten : byteLength opening = 10 := rfl
    rw [hten] at hcut
    rw [hsource]
    exact hcut
  have hsplice : Fixed.splice (cutOff (front ++ [last]) false).toList [finding (front ++ [last])] 0
      (cutOff (front ++ [last]) false).toList = .ok (opening ++
        (content (front ++ [last])) ++ [last], 1, 0) := by
    rw [Fixed.splice]
    simp only [finding, hfits, Bool.not_true, Bool.false_eq_true, if_false, Nat.not_lt_zero,
      Nat.sub_zero, hfront, hsize, splitAtByte_append, String.toList_ofList]
    rfl
  have hlisted : sortViolations [finding (front ++ [last])] = [finding (front ++ [last])] := rfl
  have houtput : String.ofList (opening ++ (content (front ++ [last])) ++
      [last]) = cutOff (front ++ [last] ++ [last]) false := by
    apply String.toList_inj.mp
    rw [toList_cutOff, String.toList_ofList]
    simp
  unfold applyViolations
  simp only [hlisted, hsplice, bind, Except.bind, houtput]

/-- Every pass finds the same again, so all passes are made. -/
theorem fixFrom_cutOff (hx : ReadsName g) (hp : c.parser.Ready g) (h : IsPlainClass word last)
    (hlast : last.utf8Size = 1) (hpath : FileKind.ofPath? path = some .svelte)
    {clock : Nat → Nat} {left passes : Nat} {outcome : FixOutcome}
    (hfix : Checker.fixFrom o files clock path left ⟨cutOff word false, passes, [finding word]⟩ c s =
      (.ok outcome, c', s')) :
    outcome = ⟨cutOff (word ++ List.replicate left last) false, passes + left,
      [finding (word ++ List.replicate left last)]⟩ := by
  induction left generalizing word passes c s with
  | zero =>
    cases hfix
    simp
  | succ left ih =>
    have hnext : cutOff (word ++ [last]) false ≠ cutOff word false := by
      intro heq
      have hlength := congrArg (fun t => t.toList.length) heq
      simp [toList_cutOff] at hlength
    simp only [Checker.fixFrom, List.isEmpty_cons, Bool.false_eq_true, if_false, apply_cutOff h hlast,
      Nat.one_ne_zero, hnext, or_self] at hfix
    split at hfix
    · cases hfix
    · next found c₁ s₁ hcheck =>
      obtain ⟨rfl, hp⟩ := check_cutOff hx hp h.grow hpath hcheck
      rw [findings, if_pos ⟨rfl, hlast⟩] at hfix
      rw [ih hp h.grow hfix]
      simp [List.replicate_succ]
      omega

/-- Nothing found is nothing done. -/
theorem fixFrom_nil {clock : Nat → Nat} {left passes : Nat} {output : String} {outcome : FixOutcome}
    (hfix : Checker.fixFrom o files clock path left ⟨output, passes, []⟩ c s = (.ok outcome, c', s')) :
    outcome = ⟨output, passes, []⟩ := by
  cases left with
  | zero =>
    cases hfix
    rfl
  | succ left =>
    cases hfix
    rfl

end CutOff

/-- Such a document is stable from the start exactly if its value is closed or ends with a character
wider than one byte. Else fixing it uses up all passes and leaves what it began with. This holds for
every class, path, settings and ranking, and every library that takes the letter for a name. -/
theorem cutOff_settles_iff {σ κ : Type} {o : Oracle σ κ} {g : Script.Grammars} {files : FileTree}
    {clock : Nat → Nat} {path : Path} {word : List Char} {last : Char} {closed : Bool} (hx : ReadsName g)
    (h : IsPlainClass word last) (hpath : FileKind.ofPath? path = some .svelte) {c c' : Checker κ} {s s' : σ}
    (hp : c.parser.Ready g) {outcome : FixOutcome}
    (hfix : c.fix o files clock path (cutOff word closed) s = (.ok outcome, c', s')) :
    (outcome.remaining = [] ↔ closed = true ∨ last.utf8Size ≠ 1) ∧
      (outcome.remaining = [] → outcome = ⟨cutOff word closed, 0, []⟩) ∧
      (outcome.remaining ≠ [] →
        let grown := word ++ List.replicate Checker.maxPasses last
        outcome = ⟨cutOff grown false, Checker.maxPasses, [finding grown]⟩) := by
  unfold Checker.fix at hfix
  split at hfix
  · cases hfix
  · next found c₁ s₁ hcheck =>
    obtain ⟨rfl, hp⟩ := check_cutOff hx hp h hpath hcheck
    by_cases hmistaken : IsMistaken last closed
    · rw [findings, if_pos hmistaken] at hfix
      obtain ⟨rfl, hlast⟩ := hmistaken
      rw [fixFrom_cutOff hx hp h hlast hpath hfix]
      simp [hlast]
    · rw [findings, if_neg hmistaken] at hfix
      rw [fixFrom_nil hfix]
      have hsettled : closed = true ∨ last.utf8Size ≠ 1 := by
        by_cases hclosed : closed = true
        · exact .inl hclosed
        · exact .inr fun hlast => hmistaken ⟨by simpa using hclosed, hlast⟩
      simp [hsettled]

/-- A checker with a configuration given in place, at work in some directory. -/
def inlineChecker : Checker OrderTable :=
  .new Script.builtIn { Settings.standard with config := .inline .null } ⟨"/work"⟩

theorem fix_cutOff_b : (inlineChecker.fix (OrderTable.fixed Sorting.alphabet) ⟨[]⟩ id
    ⟨"a.svelte"⟩ (cutOff ['b'] false) ()).1 =
      .ok ⟨cutOff "bbbbbbbbbbb".toList false, 10, [finding "bbbbbbbbbbb".toList]⟩ := by
  decide +kernel

/-- All passes are used up and the finding remains. -/
theorem cutOff_b_remains : ∃ outcome, (inlineChecker.fix (OrderTable.fixed Sorting.alphabet) ⟨[]⟩ id
    ⟨"a.svelte"⟩ (cutOff ['b'] false) ()).1 = .ok outcome ∧
      outcome.passes = Checker.maxPasses ∧ outcome.remaining ≠ [] := by
  refine ⟨_, fix_cutOff_b, rfl, ?_⟩
  simp

theorem cutOff_b_never_settles : IsPlainClass ['b'] 'b' ∧
    FileKind.ofPath? ⟨"a.svelte"⟩ = some .svelte ∧
    ∃ outcome c' s', inlineChecker.fix (OrderTable.fixed Sorting.alphabet) ⟨[]⟩ id ⟨"a.svelte"⟩
      (cutOff ['b'] false) () = (.ok outcome, c', s') ∧ ¬ outcome.remaining = [] := by
  have hclass : IsPlainClass ['b'] 'b' := by
    refine ⟨?_, rfl⟩
    intro c hc
    rw [List.mem_singleton.mp hc]
    exact ⟨rfl, by decide, by decide⟩
  have hkind : FileKind.ofPath? ⟨"a.svelte"⟩ = some .svelte := by decide +kernel
  have hrun := fix_cutOff_b
  cases hfix : inlineChecker.fix (OrderTable.fixed Sorting.alphabet) ⟨[]⟩ id ⟨"a.svelte"⟩
      (cutOff ['b'] false) () with
  | mk result rest =>
    rw [hfix] at hrun
    subst hrun
    refine ⟨hclass, hkind, _, _, _, rfl, fun hnone => ?_⟩
    rcases (cutOff_settles_iff readsName_builtIn hclass hkind (SourceParser.ready_new _) hfix).1.mp hnone with hclosed | hwide
    · cases hclosed
    · exact hwide rfl

end ClassSort

import ClassSort.Config.Source
import Mathlib.Data.List.Induction
import Mathlib.Tactic.Push

/-!
How often a resolver looks at its files, over any calls at any times, the files changing as they like
between them. A clock that runs backwards brings no look forward. Two looks at one file are more than
the refresh interval apart, every answer about a file is that of the last look at it, which is not
older than the interval, and a call that fails leaves no trace.
-/

namespace ClassSort

namespace Path

variable {p q s : Path}

theorem same_iff : p.same q = true ↔ p.components = q.components := by simp [same]

@[simp] theorem same_refl (p : Path) : p.same p = true := same_iff.mpr rfl

theorem same_trans (h : p.same q = true) (k : q.same s = true) : p.same s = true :=
  same_iff.mpr ((same_iff.mp h).trans (same_iff.mp k))

theorem same_symm (h : p.same q = true) : q.same p = true := same_iff.mpr (same_iff.mp h).symm

end Path

namespace ConfigResolver

/-! ### Resolvers whose files are watched -/

abbrev Stat (σ : Type) := Path → σ → Except OrderError Nat × σ

section Watched

variable {σ : Type} (stat : Stat σ) (r : ConfigResolver)

def modifiedVia (p : Path) (now : Nat) (s : σ) : Except OrderError Nat × ConfigResolver × σ :=
  let look : Except OrderError Nat × ConfigResolver × σ :=
    match stat p s with
    | (.error e, s) => (.error e, r, s)
    | (.ok m, s) => (.ok m, { r with checks := (p, ⟨m, now⟩) :: r.checks.filter (!·.1.same p) }, s)
  match r.check? p with
  | some seen => if now - seen.checkedAt ≤ r.refresh then (.ok seen.modified, r, s) else look
  | none => look

def resolveVia (source : ConfigSource) (cwd : Path) (now : Nat) (s : σ) :
    Except OrderError ResolvedConfig × ConfigResolver × σ :=
  match source with
  | .inline v => (.ok ⟨.inline v.print, source⟩, r, s)
  | .path rel =>
    let p := cwd.join rel
    let (result, looked) := r.modifiedVia stat p now s
    (result.map fun m => ⟨.file p m, .path p⟩, looked)

def IsStale (p : Path) (now : Nat) : Prop :=
  ∀ seen, r.check? p = some seen → r.refresh < now - seen.checkedAt

variable {stat r} {files : FileTree} {p : Path} {now : Nat}

theorem modifiedVia_fresh {seen : FileCheck} (hseen : r.check? p = some seen)
    (hfresh : now - seen.checkedAt ≤ r.refresh) (s : σ) :
    r.modifiedVia stat p now s = (.ok seen.modified, r, s) := by
  simp only [modifiedVia, hseen, if_pos hfresh]

theorem modifiedVia_stale (hstale : r.IsStale p now) (s : σ) : r.modifiedVia stat p now s =
    match stat p s with
    | (.error e, s) => (.error e, r, s)
    | (.ok m, s) => (.ok m, { r with checks := (p, ⟨m, now⟩) :: r.checks.filter (!·.1.same p) }, s) := by
  unfold modifiedVia
  cases hseen : r.check? p with
  | none => rfl
  | some seen => exact if_neg (Nat.not_le_of_lt (hstale seen hseen))

variable (r)

theorem modifiedVia_eq (hstat : ∀ p s, (stat p s).1 = modifiedMillis files p) (p : Path) (now : Nat) (s : σ) :
    (r.modifiedVia stat p now s).1 = (r.modified files p now).1 ∧
      (r.modifiedVia stat p now s).2.1 = (r.modified files p now).2 := by
  unfold modifiedVia modified
  rw [← hstat p s]
  obtain ⟨_ | m, t⟩ := stat p s
  all_goals
    dsimp only
    cases r.check? p with
    | none => exact ⟨rfl, rfl⟩
    | some seen =>
      dsimp only
      split <;> exact ⟨rfl, rfl⟩

/-- Watching the files changes nothing. -/
theorem resolveVia_eq (hstat : ∀ p s, (stat p s).1 = modifiedMillis files p) (source : ConfigSource)
    (cwd : Path) (now : Nat) (s : σ) :
    (r.resolveVia stat source cwd now s).1 = (r.resolve files source cwd now).1 ∧
      (r.resolveVia stat source cwd now s).2.1 = (r.resolve files source cwd now).2 := by
  cases source with
  | inline v => exact ⟨rfl, rfl⟩
  | path rel =>
    obtain ⟨hanswer, hresolver⟩ := r.modifiedVia_eq hstat (cwd.join rel) now s
    unfold resolveVia resolve
    dsimp only
    generalize r.modifiedVia stat (cwd.join rel) now s = watched at hanswer hresolver
    generalize r.modified files (cwd.join rel) now = plain at hanswer hresolver
    obtain ⟨_ | m, watched, t⟩ := watched <;> obtain ⟨_ | m', plain⟩ := plain <;> cases hanswer <;>
      cases hresolver <;> exact ⟨rfl, rfl⟩

end Watched

/-! ### Calls and looks -/

structure Look where
  path : Path
  now : Nat
  modified : Nat

def noted (files : FileTree) (now : Nat) : Stat (List Look) := fun p looks =>
  match modifiedMillis files p with
  | .error e => (.error e, looks)
  | .ok m => (.ok m, looks ++ [⟨p, now, m⟩])

/-- A call of a resolver, and the files as they are then. -/
structure Call where
  files : FileTree
  source : ConfigSource
  cwd : Path
  now : Nat

def Call.on (c : Call) (r : ConfigResolver) : Except OrderError ResolvedConfig × ConfigResolver :=
  r.resolve c.files c.source c.cwd c.now

def Call.watched (c : Call) (r : ConfigResolver) : Except OrderError ResolvedConfig × ConfigResolver × List Look :=
  r.resolveVia (noted c.files c.now) c.source c.cwd c.now []

def Call.looks (c : Call) (r : ConfigResolver) : List Look := (c.watched r).2.2

def after (refresh : Nat) (calls : List Call) : ConfigResolver :=
  calls.foldl (fun r c => (c.on r).2) (.new refresh)

def looksFrom (r : ConfigResolver) : List Call → List Look
  | [] => []
  | c :: calls => c.looks r ++ looksFrom (c.on r).2 calls

/-- The looks that a new resolver takes in a row of calls. -/
def looks (refresh : Nat) (calls : List Call) : List Look := looksFrom (.new refresh) calls

def lastLook? (looks : List Look) (p : Path) : Option Look := looks.reverse.find? (·.path.same p)

variable {refresh : Nat} {calls : List Call} {call : Call} {r : ConfigResolver} {p : Path} {taken : List Look}

theorem noted_eq (files : FileTree) (now : Nat) (p : Path) (looks : List Look) :
    (noted files now p looks).1 = modifiedMillis files p := by
  unfold noted
  split <;> simp [*]

inductive Took (r : ConfigResolver) (c : Call) (p : Path) :
    Except OrderError ResolvedConfig × ConfigResolver → List Look → Prop where
  | recalled (seen) : r.check? p = some seen → c.now - seen.checkedAt ≤ r.refresh →
      Took r c p (.ok ⟨.file p seen.modified, .path p⟩, r) []
  | failed (e) : r.IsStale p c.now →
      modifiedMillis c.files p = .error e → Took r c p (.error e, r) []
  | looked (m) : r.IsStale p c.now →
      modifiedMillis c.files p = .ok m → Took r c p (.ok ⟨.file p m, .path p⟩,
        { r with checks := (p, ⟨m, c.now⟩) :: r.checks.filter (!·.1.same p) }) [⟨p, c.now, m⟩]

theorem Call.on_eq (c : Call) (r : ConfigResolver) : c.on r = ((c.watched r).1, (c.watched r).2.1) := by
  obtain ⟨hanswer, hresolver⟩ := r.resolveVia_eq (noted_eq c.files c.now) c.source c.cwd c.now []
  exact Prod.ext hanswer.symm hresolver.symm

theorem call_took {rel : Path} (hsource : call.source = .path rel) (r : ConfigResolver) :
    Took r call (call.cwd.join rel) (call.on r) (call.looks r) := by
  have hwatched : call.watched r =
      ((r.modifiedVia (noted call.files call.now) (call.cwd.join rel) call.now []).1.map fun m =>
          ⟨.file (call.cwd.join rel) m, .path (call.cwd.join rel)⟩,
        (r.modifiedVia (noted call.files call.now) (call.cwd.join rel) call.now []).2) := by
    rw [Call.watched, hsource]
    rfl
  rw [call.on_eq, Call.looks]
  by_cases hstale : r.IsStale (call.cwd.join rel) call.now
  · rw [modifiedVia_stale hstale, noted] at hwatched
    cases hfile : modifiedMillis call.files (call.cwd.join rel) with
    | error e =>
      rw [hfile] at hwatched
      rw [hwatched]
      exact .failed e hstale hfile
    | ok m =>
      rw [hfile] at hwatched
      rw [hwatched]
      exact .looked m hstale hfile
  · unfold IsStale at hstale
    push Not at hstale
    obtain ⟨seen, hseen, hle⟩ := hstale
    have hfresh : call.now - seen.checkedAt ≤ r.refresh := by omega
    rw [modifiedVia_fresh hseen hfresh] at hwatched
    rw [hwatched]
    exact .recalled seen hseen hfresh

theorem call_inline {v : Json} (hsource : call.source = .inline v) (r : ConfigResolver) :
    call.on r = (.ok ⟨.inline v.print, .inline v⟩, r) ∧ call.looks r = [] := by
  rw [call.on_eq, Call.looks, Call.watched, hsource]
  exact ⟨rfl, rfl⟩

theorem lastLook?_concat (taken : List Look) (look : Look) (p : Path) :
    lastLook? (taken ++ [look]) p = if look.path.same p then some look else lastLook? taken p := by
  rw [lastLook?, List.reverse_concat, List.find?_cons, lastLook?]
  cases look.path.same p <;> rfl

theorem lastLook?_eq_some {look : Look} (h : lastLook? taken p = some look) :
    look.path.same p = true ∧ ∃ earlier later, taken = earlier ++ look :: later ∧
      ∀ other ∈ later, other.path.same p = false := by
  obtain ⟨hsame, later, earlier, hsplit, hlater⟩ := List.find?_eq_some_iff_append.mp h
  refine ⟨hsame, earlier.reverse, later.reverse, ?_, fun other hother => ?_⟩
  · rw [← List.reverse_reverse taken, hsplit]
    simp
  · simpa using hlater other (List.mem_reverse.mp hother)

/-- A look replaces what was known about its file, and nothing else. -/
theorem check?_looked (r : ConfigResolver) (p q : Path) (seen : FileCheck) :
    check? { r with checks := (p, seen) :: r.checks.filter (!·.1.same p) } q =
      if p.same q then some seen else r.check? q := by
  unfold check?
  rw [List.find?_cons]
  cases hpq : p.same q with
  | true => rfl
  | false =>
    have hother (e : Path × FileCheck) : (decide ((!e.1.same p) = true ∧ e.1.same q = true)) = e.1.same q := by
      cases heq : e.1.same q with
      | false => simp
      | true =>
        have hep : e.1.same p = false := by
          rw [← Bool.not_eq_true]
          intro hep
          rw [Path.same_trans (Path.same_symm hep) heq] at hpq
          cases hpq
        simp [hep]
    simp only [List.find?_filter, hother]
    rfl

/-- A resolver remembers the last look at each file, and the looks at a file are apart. -/
structure Remembers (refresh : Nat) (taken : List Look) (r : ConfigResolver) : Prop where
  interval : r.refresh = refresh
  check : ∀ p, r.check? p = (lastLook? taken p).map fun look => ⟨look.modified, look.now⟩
  apart : taken.Pairwise fun a b => a.path.same b.path = true → a.now + refresh < b.now

/-- No look at a file is later than the last one. -/
theorem Remembers.le_last (h : Remembers refresh taken r) {look : Look} (hlook : look ∈ taken)
    (hsame : look.path.same p = true) : ∃ last, lastLook? taken p = some last ∧ look.now ≤ last.now := by
  cases hlast : lastLook? taken p with
  | none =>
    have hnone := List.find?_eq_none.mp hlast look (List.mem_reverse.mpr hlook)
    exact absurd hsame hnone
  | some last =>
    obtain ⟨hp, earlier, later, rfl, hlater⟩ := lastLook?_eq_some hlast
    refine ⟨last, rfl, ?_⟩
    rcases List.mem_append.mp hlook with hearlier | hmem
    · have hspaced := (List.pairwise_append.mp h.apart).2.2 look hearlier last List.mem_cons_self
        (Path.same_trans hsame (Path.same_symm hp))
      omega
    · rcases List.mem_cons.mp hmem with rfl | hmem
      · exact Nat.le_refl _
      · rw [hlater look hmem] at hsame
        cases hsame

/-- A look is taken when the last one at its file is older than the interval. -/
theorem Remembers.looked (h : Remembers refresh taken r) {now : Nat} (hstale : r.IsStale p now) (m : Nat) :
    Remembers refresh (taken ++ [⟨p, now, m⟩])
      { r with checks := (p, ⟨m, now⟩) :: r.checks.filter (!·.1.same p) } := by
  constructor
  · exact h.interval
  · intro q
    rw [check?_looked, lastLook?_concat, h.check]
    cases p.same q <;> rfl
  · refine List.pairwise_append.mpr ⟨h.apart, List.pairwise_singleton _ _, fun look hlook new hnew hsame => ?_⟩
    obtain rfl := List.mem_singleton.mp hnew
    obtain ⟨last, hlast, hle⟩ := h.le_last hlook hsame
    have hcheck := h.check p
    rw [hlast] at hcheck
    have hold := hstale _ hcheck
    rw [h.interval] at hold
    dsimp only at hold ⊢
    omega

theorem Remembers.on (h : Remembers refresh taken r) (c : Call) :
    Remembers refresh (taken ++ c.looks r) (c.on r).2 := by
  cases hsource : c.source with
  | inline v =>
    obtain ⟨hon, hlooks⟩ := call_inline hsource r
    rw [hon, hlooks, List.append_nil]
    exact h
  | path rel =>
    have htook := call_took hsource r
    generalize c.on r = outcome at htook
    generalize c.looks r = new at htook
    cases htook with
    | recalled seen hseen hfresh => rwa [List.append_nil]
    | failed e hstale hfile => rwa [List.append_nil]
    | looked m hstale hfile => exact h.looked hstale m

/-- What is answered about a file is what the last look at it has shown, this call's own included. -/
theorem Remembers.answered (h : Remembers refresh taken r) {rel : Path} (hsource : call.source = .path rel)
    {config : ResolvedConfig} (hok : (call.on r).1 = .ok config) :
    ∃ look, lastLook? (taken ++ call.looks r) (call.cwd.join rel) = some look ∧
      config = ⟨.file (call.cwd.join rel) look.modified, .path (call.cwd.join rel)⟩ ∧
      call.now - look.now ≤ refresh := by
  have htook := call_took hsource r
  generalize call.on r = outcome at htook hok
  generalize call.looks r = new at htook
  cases htook with
  | recalled seen hseen hfresh =>
    cases hok
    rw [h.check, Option.map_eq_some_iff] at hseen
    obtain ⟨look, hlast, rfl⟩ := hseen
    rw [h.interval] at hfresh
    exact ⟨look, by rw [List.append_nil, hlast], rfl, hfresh⟩
  | failed e hstale hfile => cases hok
  | looked m hstale hfile =>
    cases hok
    refine ⟨⟨call.cwd.join rel, call.now, m⟩, ?_, rfl, ?_⟩
    · rw [lastLook?_concat, if_pos (Path.same_refl _)]
    · rw [Nat.sub_self]
      exact Nat.zero_le refresh

/-- One look serves as long as the interval lasts, its end included, and while the clock is behind it. -/
example : (looks 1000 ([5000, 4000, 6000, 6001].map fun now =>
    ⟨⟨[(["app.css"], .file "" 7)]⟩, .path ⟨"app.css"⟩, ⟨"/"⟩, now⟩)).map Look.now = [5000, 6001] := by decide

end ConfigResolver

end ClassSort

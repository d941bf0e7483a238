import ClassSort.Run
import ClassSort.Proofs.Checker.Passes
import ClassSort.Proofs.Files.Writing
import Mathlib.Algebra.GroupWithZero.Nat

/-!
A run as a row of turns, one for each file that is gone through. After its turn a file holds the text
that the checker has left, and what is reported about it was found in that text by the last check of the
turn. A failure ends the run in front of its file and writes nothing.

Two paths may lead to one place, when one of them has a `..`. So files are told apart by their places,
and a file holds what the last turn at its place has left.
-/

namespace ClassSort.Run

open Checker (Passes)

variable {σ κ : Type} {o : Oracle σ κ} {start : Int} {fixing : Bool}

structure Stage (σ κ : Type) where
  files : FileTree
  checker : Checker κ
  state : σ

structure Turn (σ κ : Type) where
  before : Stage σ κ
  path : Path
  place : List String
  source : String
  text : String
  passes : Nat
  found : List Violation
  after : Stage σ κ

namespace Turn

def Writes (t : Turn σ κ) : Prop := t.text ≠ t.source

instance (t : Turn σ κ) : Decidable t.Writes := inferInstanceAs (Decidable (_ ≠ _))

def report (cwd : Path) (t : Turn σ κ) : String := ClassSort.report (shownPath cwd t.path) t.text t.found

/-- Disk, report and checker agree on the file: it holds the text that the checker has left, and what is
reported is what the last check found in that text. -/
structure InStep (o : Oracle σ κ) (clock : Nat → Nat) (start : Int) (fixing : Bool) (t : Turn σ κ) : Prop where
  source : t.before.files.read t.path = .ok t.source
  place : t.before.files.resolve t.path = .ok t.place
  fixed : fixing = true → t.before.checker.fix o t.before.files clock t.path t.source t.before.state =
    (.ok ⟨t.text, t.passes, t.found⟩, t.after.checker, t.after.state)
  unfixed : fixing = false → t.text = t.source
  passes : Passes o t.before.files clock t.path t.source t.before.checker t.before.state
    ⟨t.text, t.passes, t.found⟩ t.after.checker t.after.state
  lastCheck : ∃ (c : Checker κ) (s : σ), c.check o t.before.files (clock t.passes) t.path t.text s =
    (.ok t.found, t.after.checker, t.after.state)
  text : t.after.files.read t.path = .ok t.text
  idle : ¬ t.Writes → t.after.files = t.before.files
  written : t.Writes → t.before.files.write t.path t.text (start + clock 0) = .ok t.after.files
  others : FileTree.DiffersAt t.place t.before.files t.after.files

end Turn

inductive Turns (o : Oracle σ κ) (start : Int) (fixing : Bool) :
    (Nat → Nat → Nat) → Stage σ κ → List (Turn σ κ) → Stage σ κ → Prop where
  | done {clock : Nat → Nat → Nat} {stage : Stage σ κ} : Turns o start fixing clock stage [] stage
  | next {clock : Nat → Nat → Nat} {t : Turn σ κ} {turns : List (Turn σ κ)} {last : Stage σ κ} :
      t.InStep o (clock 0) start fixing → Turns o start fixing (fun i => clock (i + 1)) t.after turns last →
      Turns o start fixing clock t.before (t :: turns) last

inductive Stops (o : Oracle σ κ) (clock : Nat → Nat) (fixing : Bool) (stage : Stage σ κ) (path : Path) :
    RunError → Prop where
  | unreadable {cause : FileError} : stage.files.read path = .error cause →
      Stops o clock fixing stage path (.unreadable path cause)
  | unfixable {source : String} {cause : CheckError} : fixing = true → stage.files.read path = .ok source →
      (stage.checker.fix o stage.files clock path source stage.state).1 = .error cause →
      Stops o clock fixing stage path (.check cause)
  | uncheckable {source : String} {cause : CheckError} : fixing = false → stage.files.read path = .ok source →
      (stage.checker.check o stage.files (clock 0) path source stage.state).1 = .error cause →
      Stops o clock fixing stage path (.check cause)

variable {tree : FileTree} {clock : Nat → Nat} {path : Path} {source : String}
  {c c' : Checker κ} {s s' : σ} {p : Progress} {result : Except RunError Progress}

/-- A text is checked or fixed, or the run stops. -/
theorem process_cases {result : Except CheckError (String × List Violation)} (hread : tree.read path = .ok source)
    (h : process o tree clock fixing path source c s = (result, c', s')) :
    (∃ cause, result = .error cause ∧ Stops o clock fixing ⟨tree, c, s⟩ path (.check cause)) ∨
      ∃ text found passes, result = .ok (text, found) ∧
        (fixing = true → c.fix o tree clock path source s = (.ok ⟨text, passes, found⟩, c', s')) ∧
        (fixing = false → text = source) ∧ Passes o tree clock path source c s ⟨text, passes, found⟩ c' s' := by
  cases fixing with
  | true =>
    rcases hfix : c.fix o tree clock path source s with ⟨cause | done, c₁, s₁⟩
    · obtain ⟨rfl, rfl, rfl⟩ : .error cause = result ∧ c₁ = c' ∧ s₁ = s' := by
        simpa [process, hfix, Except.map] using h
      exact .inl ⟨cause, rfl, .unfixable rfl hread (congrArg Prod.fst hfix)⟩
    · obtain ⟨rfl, rfl, rfl⟩ : .ok (done.output, done.remaining) = result ∧ c₁ = c' ∧ s₁ = s' := by
        simpa [process, hfix, Except.map] using h
      exact .inr ⟨_, _, done.passes, rfl, fun _ => rfl, nofun, (Checker.fix_passes hfix).1⟩
  | false =>
    rcases hcheck : c.check o tree (clock 0) path source s with ⟨cause | found, c₁, s₁⟩
    · obtain ⟨rfl, rfl, rfl⟩ : .error cause = result ∧ c₁ = c' ∧ s₁ = s' := by
        simpa [process, hcheck, Except.map] using h
      exact .inl ⟨cause, rfl, .uncheckable rfl hread (congrArg Prod.fst hcheck)⟩
    · obtain ⟨rfl, rfl, rfl⟩ : .ok (source, found) = result ∧ c₁ = c' ∧ s₁ = s' := by
        simpa [process, hcheck, Except.map] using h
      exact .inr ⟨source, found, 0, rfl, nofun, fun _ => rfl, .first hcheck⟩

/-- A text is put back in the place that it was read from, which never fails. -/
theorem store_of_read (hread : p.files.read path = .ok source) (text : String) (now : Int) :
    ∃ place files, p.files.resolve path = .ok place ∧
      p.store path source text now = .ok { p with
        files := files
        summary := { p.summary with fixed := p.summary.fixed + if text ≠ source then 1 else 0 } } ∧
      (text = source → files = p.files) ∧ (text ≠ source → p.files.write path text now = .ok files) ∧
      files.read path = .ok text ∧ FileTree.DiffersAt place p.files files := by
  by_cases htext : text = source
  · obtain ⟨place, m, hplace, -⟩ := FileTree.read_eq_ok.mp hread
    exact ⟨place, p.files, hplace, by simp [Progress.store, htext], fun _ => rfl, (absurd htext ·), htext ▸ hread,
      .refl place p.files⟩
  · obtain ⟨place, files, hplace, hwrite, hreread, hdiffers⟩ := FileTree.write_of_read hread text now
    exact ⟨place, files, hplace, by simp [Progress.store, htext, hwrite], (absurd · htext), fun _ => hwrite, hreread,
      hdiffers⟩

def Turn.record (cwd : Path) (p : Progress) (t : Turn σ κ) : Progress where
  files := t.after.files
  report := p.report ++ t.report cwd
  summary := {
    files := p.summary.files + 1
    fixed := p.summary.fixed + if t.Writes then 1 else 0
    violations := p.summary.violations + t.found.length }

/-- A file stops the run or has its turn. -/
theorem file_cases (h : file o clock start fixing path p c s = (result, c', s')) :
    (∃ cause, result = .error cause ∧ Stops o clock fixing ⟨p.files, c, s⟩ path cause) ∨
      ∃ t : Turn σ κ, t.InStep o clock start fixing ∧ t.before = ⟨p.files, c, s⟩ ∧ t.path = path ∧
        t.after.checker = c' ∧ t.after.state = s' ∧ result = .ok (t.record c.cwd p) := by
  rw [file] at h
  split at h
  · next cause hread =>
    cases h
    exact .inl ⟨_, rfl, .unreadable hread⟩
  · next source hread =>
    rcases hprocess : process o p.files clock fixing path source c s with ⟨outcome, c₁, s₁⟩
    rw [hprocess] at h
    rcases process_cases hread hprocess with
      ⟨cause, rfl, hstops⟩ | ⟨text, found, passes, rfl, hfixed, hunfixed, hpasses⟩
    · cases h
      exact .inl ⟨_, rfl, hstops⟩
    · obtain ⟨place, after, hplace, hstore, hidle, hwritten, hreread, hdiffers⟩ :=
        store_of_read hread text (start + clock 0)
      dsimp only at h
      rw [hstore] at h
      cases h
      let t : Turn σ κ := ⟨⟨p.files, c, s⟩, path, place, source, text, passes, found, ⟨after, c', s'⟩⟩
      have hturn : t.InStep o clock start fixing :=
        { source := hread, place := hplace, fixed := hfixed, unfixed := hunfixed, passes := hpasses,
          lastCheck := hpasses.lastCheck, text := hreread, idle := fun h => hidle (not_not.mp h),
          written := hwritten, others := hdiffers }
      refine .inr ⟨t, hturn, rfl, rfl, rfl, rfl, ?_⟩
      rw [hpasses.cwd]
      rfl

/-- A run is a row of turns, and then all files had theirs or the next one stops it. -/
theorem files_turns (o : Oracle σ κ) (clock : Nat → Nat → Nat) (start : Int) (fixing : Bool) (paths : List Path)
    (p : Progress) (c : Checker κ) (s : σ) :
    ∃ turns last, Turns o start fixing clock ⟨p.files, c, s⟩ turns last ∧
      ((turns.map (·.path) = paths ∧ files o clock start fixing paths p c s =
          ⟨.ok (turns.foldl (Turn.record c.cwd) p).summary, (turns.foldl (Turn.record c.cwd) p).report, last.files⟩) ∨
        ∃ path rest cause, paths = turns.map (·.path) ++ path :: rest ∧
          Stops o (clock turns.length) fixing last path cause ∧
          files o clock start fixing paths p c s =
            ⟨.error cause, (turns.foldl (Turn.record c.cwd) p).report, last.files⟩) := by
  induction paths generalizing clock p c s with
  | nil => exact ⟨[], _, .done, .inl ⟨rfl, rfl⟩⟩
  | cons path paths ih =>
    rw [files]
    rcases hfile : file o (clock 0) start fixing path p c s with ⟨result, c', s'⟩
    rcases file_cases hfile with ⟨cause, rfl, hstops⟩ | ⟨t, hturn, hbefore, rfl, rfl, rfl, rfl⟩
    · exact ⟨[], _, .done, .inr ⟨path, paths, cause, rfl, hstops, rfl⟩⟩
    · have hcwd : t.after.checker.cwd = c.cwd := by rw [hturn.passes.cwd, hbefore]
      obtain ⟨turns, last, hturns, hend⟩ :=
        ih (fun i => clock (i + 1)) (t.record c.cwd p) t.after.checker t.after.state
      rw [hcwd] at hend
      refine ⟨t :: turns, last, hbefore ▸ .next hturn hturns, ?_⟩
      rcases hend with ⟨hpaths, houtcome⟩ | ⟨path, rest, cause, hpaths, hstops, houtcome⟩
      · exact .inl ⟨by rw [List.map_cons, hpaths], houtcome⟩
      · exact .inr ⟨path, rest, cause, by rw [List.map_cons, hpaths, List.cons_append], hstops, houtcome⟩

theorem foldl_record (cwd : Path) (p : Progress) (turns : List (Turn σ κ)) :
    (turns.foldl (Turn.record cwd) p).report = p.report ++ String.join (turns.map (·.report cwd)) ∧
      (turns.foldl (Turn.record cwd) p).summary = {
        files := p.summary.files + turns.length
        fixed := p.summary.fixed + turns.countP (·.Writes)
        violations := p.summary.violations + (turns.map (·.found.length)).sum } := by
  induction turns generalizing p with
  | nil => simp
  | cons t turns ih =>
    obtain ⟨hreport, hsummary⟩ := ih (t.record cwd p)
    rw [List.foldl_cons, hreport, hsummary]
    simp [Turn.record, String.append_assoc, List.countP_cons]
    omega

namespace Turn

variable {t : Turn σ κ}

theorem InStep.shape (h : t.InStep o clock start fixing) : t.before.files.SameShape t.after.files := h.others.shape

theorem InStep.find (h : t.InStep o clock start fixing)
    (hpath : t.Writes → t.before.files.resolve path ≠ .ok t.place) :
    t.after.files.find path = t.before.files.find path := by
  by_cases hwrites : t.Writes
  · exact h.others.find (hpath hwrites)
  · rw [h.idle hwrites]

end Turn

namespace Turns

variable {clock : Nat → Nat → Nat} {first last : Stage σ κ} {turns past later : List (Turn σ κ)} {t : Turn σ κ}

/-- No turn makes a path lead elsewhere. -/
theorem shape (h : Turns o start fixing clock first turns last) : first.files.SameShape last.files := by
  induction h with
  | done => exact .refl _
  | next hturn _ ih => exact hturn.shape.trans ih

theorem find (h : Turns o start fixing clock first turns last)
    (hpath : ∀ t ∈ turns, t.Writes → first.files.resolve path ≠ .ok t.place) :
    last.files.find path = first.files.find path := by
  induction h with
  | done => rfl
  | next hturn _ ih =>
    rw [ih fun u hu hwrites => hturn.shape.resolve path ▸ hpath u (List.mem_cons_of_mem _ hu) hwrites]
    exact hturn.find (hpath _ List.mem_cons_self)

/-- The turns behind a turn go on from where it ends. -/
theorem split (h : Turns o start fixing clock first (past ++ t :: later) last) :
    t.InStep o (clock past.length) start fixing ∧
      Turns o start fixing (fun i => clock (i + (past.length + 1))) t.after later last := by
  induction past generalizing clock first with
  | nil =>
    cases h with
    | next hturn hlater => exact ⟨hturn, hlater⟩
  | cons u past ih =>
    cases h with
    | next _ hrest => exact ih hrest

theorem places (h : Turns o start fixing clock first turns last) :
    ∀ t ∈ turns, first.files.resolve t.path = .ok t.place := by
  induction h with
  | done => simp
  | next hturn _ ih =>
    intro t ht
    rcases List.mem_cons.mp ht with rfl | ht
    · exact hturn.place
    · rw [← hturn.shape.resolve]
      exact ih t ht

/-- A file keeps the text that its turn has left until another turn writes to its place. -/
theorem complete (h : Turns o start fixing clock first (past ++ t :: later) last)
    (hlater : ∀ u ∈ later, u.Writes → u.place ≠ t.place) : last.files.read t.path = .ok t.text := by
  obtain ⟨hturn, hrest⟩ := h.split
  have hfind : last.files.find t.path = t.after.files.find t.path := by
    refine hrest.find fun u hu hwrites hplace => ?_
    rw [hturn.shape.resolve, hturn.place] at hplace
    exact hlater u hu hwrites (Except.ok.inj hplace).symm
  unfold FileTree.read
  rw [hfind]
  exact hturn.text

theorem unwritten (h : Turns o start false clock first turns last) : last.files = first.files := by
  induction h with
  | done => rfl
  | next hturn _ ih =>
    have hkept := hturn.unfixed rfl
    exact ih.trans (hturn.idle fun hwrites => hwrites hkept)

end Turns

/-- A run over files leaves disk, report and checker in step: turns for the files from the first on, all
of them unless one stops the run, each reported and counted by what its last check has found. -/
structure InStep (o : Oracle σ κ) (clock : Nat → Nat → Nat) (start : Int) (fixing : Bool) (paths : List Path)
    (first : Stage σ κ) (outcome : Outcome) (turns : List (Turn σ κ)) (last : Stage σ κ) : Prop where
  steps : Turns o start fixing clock first turns last
  ending : turns.map (·.path) = paths ∧ outcome.result = .ok {
      files := turns.length
      fixed := turns.countP (·.Writes)
      violations := (turns.map (·.found.length)).sum } ∨
    ∃ path rest cause, paths = turns.map (·.path) ++ path :: rest ∧ outcome.result = .error cause ∧
      Stops o (clock turns.length) fixing last path cause
  report : outcome.report = String.join (turns.map (·.report first.checker.cwd))
  files : outcome.files = last.files
  places : ∀ t ∈ turns, first.files.resolve t.path = .ok t.place
  complete : ∀ past t later, turns = past ++ t :: later → (∀ u ∈ later, u.Writes → u.place ≠ t.place) →
    outcome.files.read t.path = .ok t.text
  untouched : ∀ path, (∀ t ∈ turns, t.Writes → first.files.resolve path ≠ .ok t.place) →
    outcome.files.find path = first.files.find path
  unwritten : fixing = false → outcome.files = first.files

theorem files_inStep (o : Oracle σ κ) (clock : Nat → Nat → Nat) (start : Int) (fixing : Bool)
    (paths : List Path) (tree : FileTree) (c : Checker κ) (s : σ) :
    ∃ turns last, InStep o clock start fixing paths ⟨tree, c, s⟩
      (files o clock start fixing paths (.start tree) c s) turns last := by
  obtain ⟨turns, last, hturns, hend⟩ := files_turns o clock start fixing paths (.start tree) c s
  obtain ⟨hreport, hsummary⟩ := foldl_record c.cwd (.start tree) turns
  simp only [Progress.start, Nat.zero_add, String.empty_append] at hreport hsummary hturns hend
  have hfiles : (files o clock start fixing paths (.start tree) c s).files = last.files := by
    rcases hend with ⟨-, houtcome⟩ | ⟨_, _, _, -, -, houtcome⟩ <;> exact congrArg Outcome.files houtcome
  refine ⟨turns, last, hturns, ?_, ?_, hfiles, hturns.places, ?_, ?_, ?_⟩
  · rcases hend with ⟨hpaths, houtcome⟩ | ⟨path, rest, cause, hpaths, hstops, houtcome⟩
    · exact .inl ⟨hpaths, (congrArg Outcome.result houtcome).trans (congrArg Except.ok hsummary)⟩
    · exact .inr ⟨path, rest, cause, hpaths, congrArg Outcome.result houtcome, hstops⟩
  · rw [← hreport]
    rcases hend with ⟨-, houtcome⟩ | ⟨_, _, _, -, -, houtcome⟩ <;> exact congrArg Outcome.report houtcome
  · rintro past t later rfl hlater
    exact hfiles ▸ hturns.complete hlater
  · intro path hpath
    exact hfiles ▸ hturns.find hpath
  · rintro rfl
    exact hfiles.trans hturns.unwritten

inductive Conducts (env : Environment) (line : CommandLine) (tree : FileTree) : Outcome → Prop where
  | unsettled {cause : RunError} :
      Settings.load tree (line.settings.map Path.mk) (line.directory env) = .error cause →
      Conducts env line tree ⟨.error cause, "", tree⟩
  | workerless {settings : Settings} {cause : OracleError} :
      Settings.load tree (line.settings.map Path.mk) (line.directory env) = .ok settings →
      (settings.override line).table = none →
      Client.new (workerConfig env (settings.override line) (line.directory env)) = .error cause →
      Conducts env line tree ⟨.error (.worker cause), "", tree⟩
  | byTable {settings : Settings} {table : Path} {outcome : Outcome} {turns : List (Turn Unit OrderTable)}
      {last : Stage Unit OrderTable} :
      Settings.load tree (line.settings.map Path.mk) (line.directory env) = .ok settings →
      (settings.override line).table = some table →
      InStep (OrderTable.fromFile ((line.directory env).join table)) env.clock env.start line.fix
        (Discovery.discover tree (line.directory env) (line.paths.map Path.mk))
        ⟨tree, .new env.grammars (settings.override line) (line.directory env), ()⟩ outcome turns last →
      Conducts env line tree outcome
  | byWorker {settings : Settings} {client : Client} {outcome : Outcome} {turns : List (Turn Client WorkerContext)}
      {last : Stage Client WorkerContext} :
      Settings.load tree (line.settings.map Path.mk) (line.directory env) = .ok settings →
      (settings.override line).table = none →
      Client.new (workerConfig env (settings.override line) (line.directory env)) = .ok client →
      InStep (WorkerContext.oracle (env.workers (workerConfig env (settings.override line) (line.directory env))))
        env.clock env.start line.fix (Discovery.discover tree (line.directory env) (line.paths.map Path.mk))
        ⟨tree, .new env.grammars (settings.override line) (line.directory env), client⟩ outcome turns last →
      Conducts env line tree outcome

/-- A run keeps disk, report and checker in step, whatever files it finds and wherever it stops. -/
theorem run_inStep (env : Environment) (line : CommandLine) (tree : FileTree) :
    Conducts env line tree (run env line tree) := by
  unfold ClassSort.run
  dsimp only
  cases hload : Settings.load tree (line.settings.map Path.mk) (line.directory env) with
  | error cause => exact .unsettled hload
  | ok settings =>
    dsimp only
    rw [withSettings]
    dsimp only
    cases htable : (settings.override line).table with
    | some table =>
      obtain ⟨turns, last, hsteps⟩ := files_inStep (OrderTable.fromFile ((line.directory env).join table)) env.clock
        env.start line.fix (Discovery.discover tree (line.directory env) (line.paths.map Path.mk)) tree
        (.new env.grammars (settings.override line) (line.directory env)) ()
      exact .byTable hload htable hsteps
    | none =>
      dsimp only
      cases hclient : Client.new (workerConfig env (settings.override line) (line.directory env)) with
      | error cause => exact .workerless hload htable hclient
      | ok client =>
        obtain ⟨turns, last, hsteps⟩ := files_inStep (WorkerContext.oracle (env.workers (workerConfig env
            (settings.override line) (line.directory env)))) env.clock env.start line.fix
          (Discovery.discover tree (line.directory env) (line.paths.map Path.mk)) tree
          (.new env.grammars (settings.override line) (line.directory env)) client
        exact .byWorker hload htable hclient hsteps

end ClassSort.Run

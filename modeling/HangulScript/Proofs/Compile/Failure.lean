import HangulScript.Command.Outcome
import HangulScript.Proofs.Compile.Batch

/-!
# Compiling that fails

The first failure ends a run. What is left then is the tree that the files before left, with what the failing file added to
it. A disk that records what it is asked for shows that the files after it are not touched.
-/

namespace HangulScript

/-! ## What a disk is asked for -/

/-- What a disk can be asked for. -/
inductive DiskRequest
  | read (path : Path)
  | createDirectories (path : Path)
  | write (path : Path)
deriving DecidableEq

/-- The disk that also records the requests, the latest at the end. -/
def Disk.recorded {σ : Type} (disk : Disk (StateM σ)) : Disk (StateM (σ × List DiskRequest)) where
  read path := fun (s, record) =>
    let done := (disk.read path).run s
    (done.1, done.2, record ++ [.read path])
  createDirectories path := fun (s, record) =>
    let done := (disk.createDirectories path).run s
    (done.1, done.2, record ++ [.createDirectories path])
  write path content := fun (s, record) =>
    let done := (disk.write path content).run s
    (done.1, done.2, record ++ [.write path])

/-- The requests for the directories around an output. -/
def directoryRequests (output : Path) : List DiskRequest :=
  match output.parent? with
  | none => []
  | some directory => if directory.text = [] then [] else [.createDirectories directory]

/-- All the requests of compiling a file. -/
def allRequests (input output : Path) : List DiskRequest :=
  .read input :: directoryRequests output ++ [.write output]

/-- The requests of compiling a file, as its outcome tells. -/
def compileRequests (input output : Path) : Except CompileError (List Char) → List DiskRequest
  | .error (.overwrites _) => []
  | .error (.unreadable _ _) | .error (.aborted _) => [.read input]
  | .error (.uncreatable _ _) => .read input :: directoryRequests output
  | .error (.unwritable _ _) | .ok _ => allRequests input output

section

variable {σ : Type} (disk : Disk (StateM σ)) (directory : Option Path) (s : σ) (record : List DiskRequest)

theorem run_recorded_read (path : Path) : (disk.recorded.read path).run (s, record) =
    (((disk.read path).run s).1, ((disk.read path).run s).2, record ++ [.read path]) := rfl

theorem run_recorded_createDirectories (path : Path) : (disk.recorded.createDirectories path).run (s, record) =
    (((disk.createDirectories path).run s).1, ((disk.createDirectories path).run s).2,
      record ++ [.createDirectories path]) := rfl

theorem run_recorded_write (path : Path) (content : ByteArray) : (disk.recorded.write path content).run (s, record) =
    (((disk.write path content).run s).1, ((disk.write path content).run s).2, record ++ [.write path]) := rfl

/-- A source is read by one request, and no other failure comes of it. -/
theorem run_recorded_readText (input : Path) :
    (disk.recorded.readText input).run (s, record) =
        (((disk.readText input).run s).1, ((disk.readText input).run s).2, record ++ [.read input]) ∧
      ((∃ cause, ((disk.readText input).run s).1 = .error (.unreadable input cause)) ∨
        ∃ source, ((disk.readText input).run s).1 = .ok source) := by
  simp only [Disk.readText, StateM.run_bind, run_recorded_read]
  cases (disk.read input).run s with
  | mk outcome next =>
      cases outcome with
      | error cause => exact ⟨rfl, Or.inl ⟨cause, rfl⟩⟩
      | ok content =>
          dsimp only
          cases textOfBytes? content with
          | none => exact ⟨rfl, Or.inl ⟨.invalidText, rfl⟩⟩
          | some source => exact ⟨rfl, Or.inr ⟨source, rfl⟩⟩

theorem run_recorded_createAround (output : Path) :
    (disk.recorded.createAround output).run (s, record) =
        (((disk.createAround output).run s).1, ((disk.createAround output).run s).2,
          record ++ directoryRequests output) ∧
      ((∃ around cause, ((disk.createAround output).run s).1 = .error (.uncreatable around cause)) ∨
        ((disk.createAround output).run s).1 = .ok ()) := by
  unfold Disk.createAround directoryRequests
  cases output.parent? with
  | none => exact ⟨by rw [List.append_nil]; rfl, Or.inr rfl⟩
  | some around =>
      by_cases hempty : around.text = []
      · simp only [hempty, if_true, List.append_nil]
        exact ⟨rfl, Or.inr rfl⟩
      · simp only [hempty, if_false, StateM.run_bind, run_recorded_createDirectories]
        cases (disk.createDirectories around).run s with
        | mk outcome next =>
            cases outcome with
            | error cause => exact ⟨rfl, Or.inl ⟨around, cause, rfl⟩⟩
            | ok done => exact ⟨rfl, Or.inr rfl⟩

/-- Storing a text asks for the directories and then, if they are there, for the file. -/
theorem run_recorded_store (output : Path) (text : List Char) :
    (∃ around cause, ((disk.store output text).run s).1 = .error (.uncreatable around cause) ∧
      (disk.recorded.store output text).run (s, record) =
        (((disk.store output text).run s).1, ((disk.store output text).run s).2, record ++ directoryRequests output)) ∨
      ((∃ cause, ((disk.store output text).run s).1 = .error (.unwritable output cause)) ∨
          ((disk.store output text).run s).1 = .ok ()) ∧
        (disk.recorded.store output text).run (s, record) =
          (((disk.store output text).run s).1, ((disk.store output text).run s).2,
            record ++ (directoryRequests output ++ [.write output])) := by
  obtain ⟨hrecorded, hcreate⟩ := run_recorded_createAround disk s record output
  simp only [Disk.store, StateM.run_bind, hrecorded]
  generalize (disk.createAround output).run s = created at hcreate ⊢
  obtain ⟨outcome, next⟩ := created
  rcases hcreate with ⟨around, cause, rfl⟩ | rfl
  · exact Or.inl ⟨around, cause, rfl, rfl⟩
  · refine Or.inr ?_
    simp only [StateM.run_bind, run_recorded_write, List.append_assoc]
    cases (disk.write output (bytesOfText text)).run next with
    | mk outcome last =>
        cases outcome with
        | error cause => exact ⟨Or.inl ⟨cause, rfl⟩, rfl⟩
        | ok done => exact ⟨Or.inr rfl, rfl⟩

/-- Compiling a file on the disk that records does what it does without the record, and its outcome tells the requests. -/
theorem run_recorded_compile (input output : Path) :
    (disk.recorded.compile input output).run (s, record) =
      let done := (disk.compile input output).run s
      (done.1, done.2, record ++ compileRequests input output done.1.outcome) := by
  unfold Disk.compile
  cases input.sameAs output with
  | true =>
      simp only [if_true]
      exact congrArg (fun requests => (_, s, requests)) (List.append_nil record).symm
  | false =>
      obtain ⟨hrecorded, hread⟩ := run_recorded_readText disk s record input
      simp only [Bool.false_eq_true, if_false, StateM.run_bind, hrecorded]
      generalize (disk.readText input).run s = read at hread ⊢
      obtain ⟨outcome, next⟩ := read
      rcases hread with ⟨cause, rfl⟩ | ⟨source, rfl⟩
      · rfl
      · dsimp only
        cases convert {} source with
        | error abort => rfl
        | ok done =>
            simp only [StateM.run_bind]
            rcases run_recorded_store disk next (record ++ [.read input]) output done.text with
              ⟨around, cause, hstore, hrun⟩ | ⟨⟨cause, hstore⟩ | hstore, hrun⟩
            all_goals
              rw [hrun]
              simp only [hstore]
              rw [List.append_assoc]
              rfl

/-! ## The first failure -/

/-- The state after files are compiled in order. -/
def Disk.after (inputs : List Path) : σ :=
  inputs.foldl (fun s input => ((disk.compile input (input.generated directory)).run s).2) s

/-- Files are compiled in order without a failure. -/
def Disk.Succeeds : σ → List Path → Prop
  | _, [] => True
  | s, input :: rest =>
    (∃ text, ((disk.compile input (input.generated directory)).run s).1.outcome = .ok text) ∧
      Disk.Succeeds ((disk.compile input (input.generated directory)).run s).2 rest

/-- The files before one are compiled without a failure, and that one fails. -/
structure Disk.FailsFirst (before : List Path) (input : Path) (e : CompileError) : Prop where
  succeeds : disk.Succeeds directory s before
  fails : ((disk.compile input (input.generated directory)).run (disk.after directory s before)).1.outcome = .error e

theorem Disk.after_append (first rest : List Path) :
    disk.after directory s (first ++ rest) = disk.after directory (disk.after directory s first) rest :=
  List.foldl_append

/-- Files are compiled without a failure, or one of them is the first to fail. -/
theorem Disk.succeeds_or_failsFirst (inputs : List Path) :
    disk.Succeeds directory s inputs ∨
      ∃ before input after e, inputs = before ++ input :: after ∧ disk.FailsFirst directory s before input e := by
  induction inputs generalizing s with
  | nil => exact Or.inl trivial
  | cons input rest ih =>
      cases hinput : ((disk.compile input (input.generated directory)).run s).1.outcome with
      | error e => exact Or.inr ⟨[], input, rest, e, rfl, trivial, hinput⟩
      | ok text =>
          rcases ih ((disk.compile input (input.generated directory)).run s).2 with
            hrest | ⟨before, later, after, e, rfl, hbefore, hlater⟩
          · exact Or.inl ⟨⟨text, hinput⟩, hrest⟩
          · exact Or.inr ⟨input :: before, later, after, e, rfl, ⟨⟨text, hinput⟩, hbefore⟩, hlater⟩

variable {disk directory s}

theorem Disk.Succeeds.run_compileAll {inputs : List Path} (h : disk.Succeeds directory s inputs) :
    ∃ events, (disk.compileAll directory inputs).run s =
      (⟨events, .ok (inputs.map (·.generated directory))⟩, disk.after directory s inputs) := by
  induction inputs generalizing s with
  | nil => exact ⟨[], rfl⟩
  | cons input rest ih =>
      obtain ⟨⟨text, hinput⟩, hrest⟩ := h
      obtain ⟨events, hrun⟩ := ih hrest
      rw [run_compileAll_cons]
      simp only [hinput, hrun]
      exact ⟨_, rfl⟩

/-- The first failure ends a batch: what comes after it is not compiled. -/
theorem Disk.FailsFirst.run_compileAll {before : List Path} {input : Path} {e : CompileError}
    (h : disk.FailsFirst directory s before input e) (after : List Path) :
    ∃ events, (disk.compileAll directory (before ++ input :: after)).run s =
      (⟨events, .error e⟩, disk.after directory s (before ++ [input])) := by
  obtain ⟨events, hbefore⟩ := h.succeeds.run_compileAll
  rw [run_compileAll_append, Disk.after_append]
  simp only [hbefore]
  rw [run_compileAll_cons]
  simp only [h.fails]
  exact ⟨_, rfl⟩

/-- A run whose first failure is `e` announces no file and has the status of `e`. -/
theorem Disk.FailsFirst.run_runCompile {before : List Path} {input : Path} {e : CompileError}
    (h : disk.FailsFirst directory s before input e) (filter : LogFilter) (after : List Path) :
    ∃ errors, (runCompile disk filter directory (before ++ input :: after)).run s =
      (⟨e.status, [], errors⟩, disk.after directory s (before ++ [input])) := by
  obtain ⟨events, hrun⟩ := h.run_compileAll after
  refine ⟨filter.lines events ++ e.report, ?_⟩
  simp only [runCompile, StateM.run_bind, hrun]
  rfl

theorem Disk.recorded_after_cons (input : Path) (rest : List Path) :
    disk.recorded.after directory (s, record) (input :: rest) =
      let done := (disk.compile input (input.generated directory)).run s
      disk.recorded.after directory
        (done.2, record ++ compileRequests input (input.generated directory) done.1.outcome) rest := by
  rw [Disk.after, List.foldl_cons, run_recorded_compile]
  rfl

/-- The record of files that are compiled without a failure holds all their requests in order. -/
theorem Disk.Succeeds.recorded {inputs : List Path} (h : disk.Succeeds directory s inputs) :
    disk.recorded.Succeeds directory (s, record) inputs ∧
      disk.recorded.after directory (s, record) inputs =
        (disk.after directory s inputs,
          record ++ inputs.flatMap fun input => allRequests input (input.generated directory)) := by
  induction inputs generalizing s record with
  | nil => exact ⟨trivial, by rw [List.flatMap_nil, List.append_nil]; rfl⟩
  | cons input rest ih =>
      obtain ⟨⟨text, hinput⟩, hrest⟩ := h
      have hrecorded := run_recorded_compile disk s record input (input.generated directory)
      obtain ⟨hsucceeds, hafter⟩ := ih
        (record ++ compileRequests input (input.generated directory) (.ok text)) hrest
      rw [Disk.recorded_after_cons]
      simp only [Disk.Succeeds, hrecorded, hinput]
      refine ⟨⟨⟨text, rfl⟩, hsucceeds⟩, ?_⟩
      rw [hafter, List.flatMap_cons, List.append_assoc]
      rfl

/-- The record of a batch ends with the file that fails first. -/
theorem Disk.FailsFirst.recorded {before : List Path} {input : Path} {e : CompileError}
    (h : disk.FailsFirst directory s before input e) :
    disk.recorded.FailsFirst directory (s, record) before input e ∧
      disk.recorded.after directory (s, record) (before ++ [input]) =
        (disk.after directory s (before ++ [input]),
          record ++ (before.flatMap fun source => allRequests source (source.generated directory)) ++
            compileRequests input (input.generated directory) (.error e)) := by
  obtain ⟨hbefore, hafter⟩ := h.succeeds.recorded record
  have hinput := h.fails
  refine ⟨⟨hbefore, ?_⟩, ?_⟩
  · rw [hafter, run_recorded_compile]
    exact hinput
  · rw [Disk.after_append, hafter, Disk.recorded_after_cons, Disk.after_append]
    simp only [hinput]
    rfl

end

theorem CompileError.status_ne_success (e : CompileError) : e.status ≠ Outcome.success := by
  cases e <;> exact Nat.succ_ne_zero _

theorem CompileError.status_eq_failure (e : CompileError) (h : ∀ abort, e ≠ .aborted abort) :
    e.status = Outcome.failure := by
  cases e with
  | aborted abort => exact absurd rfl (h abort)
  | overwrites | unreadable | uncreatable | unwritable => rfl

/-! ## What a failure leaves -/

/-- What compiling a file leaves of a tree, as its outcome tells. A file that is not converted leaves the tree as it was. One
that is not stored leaves at most new directories around the output. One that is stored puts the output there too. -/
def FileTree.Leaves (tree : FileTree) (input output : Path) (final : FileTree) : Except CompileError (List Char) → Prop
  | .error (.overwrites _) => input.sameAs output = true ∧ final = tree
  | .error (.unreadable _ cause) => tree.Unreadable input cause ∧ final = tree
  | .error (.aborted _) => final = tree
  | .error (.uncreatable _ _) | .error (.unwritable _ _) => tree.GrowsAround output final
  | .ok text => ∃ grown, tree.GrowsAround output grown ∧ final.workingDirectory = tree.workingDirectory ∧
      ∀ place, final.get? place =
        if place = tree.locate output then some (.file (bytesOfText text)) else grown.get? place

open FileTree

theorem Compiles.leaves {tree final : FileTree} {input output : Path} {outcome : Except CompileError (List Char)}
    (h : Compiles tree input output outcome final) : tree.Leaves input output final outcome := by
  cases h with
  | refused hsame => exact ⟨hsame, rfl⟩
  | unread _ hcause => exact ⟨hcause, rfl⟩
  | aborted => rfl
  | uncreated _ hgrows | unwritten _ hgrows => exact hgrows
  | written _ _ _ _ hgrows hwrite =>
      refine ⟨_, hgrows, (write_carries hwrite).workingDirectory.trans hgrows.workingDirectory, fun place => ?_⟩
      rw [write_get? hwrite, hgrows.carries.locate]

/-- A file that fails leaves what its failure tells. A batch ends at the first file that fails: it leaves the tree that the
files before left and what the failing one leaves of it, asks for nothing beyond that one, announces no file and fails. -/
theorem failure_leaves_known_tree :
    (∀ (tree : FileTree) (input output : Path),
      tree.Leaves input output ((disk.compile input output).run tree).2 ((disk.compile input output).run tree).1.outcome) ∧
    ∀ filter directory inputs tree,
      (disk.Succeeds directory tree inputs ∨
        ∃ before input after e, inputs = before ++ input :: after ∧ disk.FailsFirst directory tree before input e) ∧
      ∀ before input after e, inputs = before ++ input :: after → disk.FailsFirst directory tree before input e →
        let final := disk.after directory tree (before ++ [input])
        (disk.after directory tree before).Leaves input (input.generated directory) final (.error e) ∧
        (∃ errors, (runCompile disk filter directory inputs).run tree = (⟨e.status, [], errors⟩, final)) ∧
        ((runCompile disk.recorded filter directory inputs).run (tree, [])).2 =
          (final, (before.flatMap fun source => allRequests source (source.generated directory)) ++
            compileRequests input (input.generated directory) (.error e)) ∧
        e.status ≠ Outcome.success ∧ ((∀ abort, e ≠ .aborted abort) → e.status = Outcome.failure) := by
  refine ⟨fun tree input output => (run_compile tree input output).leaves, fun filter directory inputs tree => ?_⟩
  refine ⟨disk.succeeds_or_failsFirst directory tree inputs, ?_⟩
  rintro before input after e rfl hfails
  refine ⟨?_, hfails.run_runCompile filter after, ?_, e.status_ne_success, e.status_eq_failure⟩
  · have hinput := (run_compile (disk.after directory tree before) input (input.generated directory)).leaves
    rw [hfails.fails] at hinput
    rw [Disk.after_append]
    exact hinput
  · obtain ⟨hrecorded, hafter⟩ := hfails.recorded []
    obtain ⟨errors, hrun⟩ := hrecorded.run_runCompile filter after
    rw [hrun, hafter, List.nil_append]

/-- A tree with the sources `a.ks` and `c.ks` and no `b.ks`. -/
def sourcesAround : FileTree :=
  ⟨["home".toList],
    [(["home".toList, "a.ks".toList], .file (bytesOfText "상수".toList)),
      (["home".toList, "c.ks".toList], .file (bytesOfText "변수".toList)), (["home".toList], .directory)]⟩

theorem missing_source_ends_batch :
    let a := Path.ofString "a.ks"
    let b := Path.ofString "b.ks"
    let c := Path.ofString "c.ks"
    disk.FailsFirst none sourcesAround [a] b (.unreadable b .missing) ∧
      (∃ errors, (runCompile disk [] none [a, b, c]).run sourcesAround =
        (⟨Outcome.failure, [], errors⟩, disk.after none sourcesAround [a, b])) ∧
      ((runCompile disk.recorded [] none [a, b, c]).run (sourcesAround, [])).2.2 =
        [.read a, .write (.ofString "a.ts"), .read b] := by
  intro a b c
  have hfails : disk.FailsFirst none sourcesAround [a] b (.unreadable b .missing) :=
    ⟨⟨⟨"const".toList, by decide +kernel⟩, trivial⟩, by decide +kernel⟩
  obtain ⟨-, hrun, hrecord, -⟩ :=
    (failure_leaves_known_tree.2 [] none [a, b, c] sourcesAround).2 [a] b [c] _ rfl hfails
  refine ⟨hfails, hrun, (congrArg Prod.snd hrecord).trans ?_⟩
  decide +kernel

end HangulScript

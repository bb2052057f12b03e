import Mathlib.Tactic.SplitIfs
import HangulScript.Command.Run
import HangulScript.Proofs.Compile.Failure
import HangulScript.Proofs.Conversion.Lines

/-!
# Checking several files

Files are checked one after the other over one tree, which stays as it was. Each gives a report, up to the first that gives
none. What a run prints line by line, what it prints as one array and its status are read off those reports.
-/

namespace HangulScript

open FileTree

/-! ## One source -/

/-- What checking a source can come to. -/
inductive Checks (tree : FileTree) (inspect : Inspector) (input : Path) : Except CompileError Checked → Prop
  | unread {cause : FileError} (hcause : tree.Unreadable input cause) :
      Checks tree inspect input (.error (.unreadable input cause))
  /-- A hole has more open braces than can be counted. -/
  | deep {content : ByteArray} {source : List Char} (hread : tree.read input = .ok content)
      (hsource : textOfBytes? content = some source) (hdeep : Region.maxHoleDepth ≤ source.count '{') :
      Checks tree inspect input (.error (.aborted .holeTooDeep))
  /-- Nothing is left of the source, and a finding still has a place. -/
  | placeless {content : ByteArray} {source : List Char} {done : Conversion} {finding : Finding}
      (hread : tree.read input = .ok content) (hsource : textOfBytes? content = some source)
      (hconvert : convert {} source = .ok done) (hempty : Text.dropMark done.text = [])
      (hfinding : finding ∈ inspect done.text) (hplace : finding.offset ≠ none) :
      Checks tree inspect input (.error (.aborted .positionInEmptyText))
  | checked {content : ByteArray} {source : List Char} {done : Conversion} {diagnostics : List Diagnostic}
      (hread : tree.read input = .ok content) (hsource : textOfBytes? content = some source)
      (hconvert : convert {} source = .ok done)
      (hdiagnostics : List.Forall₂ (fun finding diagnostic =>
        Diagnostic.ofFinding done.text (Path.checkedName input.text) finding = .ok diagnostic)
        (inspect done.text) diagnostics) :
      Checks tree inspect input (.ok ⟨done, Path.checkedName input.text, done.text, diagnostics⟩)

/-- What checking a source gives, as the tree stands. -/
def FileTree.check (tree : FileTree) (inspect : Inspector) (input : Path) : Except CompileError Checked :=
  match ((disk.readText input).run tree).1 with
  | .error e => .error e
  | .ok source => (Checked.ofSource inspect source input.text).mapError .aborted

/-- A conversion is broken off by nothing but the braces of a hole. -/
theorem convert_cases (source : List Char) :
    (∃ done, convert {} source = .ok done) ∨
      convert {} source = .error .holeTooDeep ∧ Region.maxHoleDepth ≤ source.count '{' := by
  cases htrace : traceKeywords keywordTable source with
  | ok trace =>
      rw [convert, htrace]
      exact Or.inl ⟨_, rfl⟩
  | error abort =>
      have hconvert : convert {} source = .error abort := by
        rw [convert, htrace]
        rfl
      have habort : abort = .holeTooDeep := by
        rw [traceKeywords] at htrace
        split_ifs at htrace
        exact (Except.error.inj htrace).symm
      refine Or.inr ⟨by rw [hconvert, habort], Nat.le_of_not_lt fun hfew => ?_⟩
      rw [Keywords.traceKeywords_ok keywordTable hfew] at htrace
      cases htrace

/-- Only a place in an empty text has no diagnostic. -/
theorem Diagnostic.ofFinding_eq_error {text file : List Char} {finding : Finding} {abort : Abort}
    (h : ofFinding text file finding = .error abort) :
    abort = .positionInEmptyText ∧ Text.dropMark text = [] ∧ finding.offset ≠ none := by
  obtain ⟨message, offset⟩ := finding
  cases offset with
  | none => cases h
  | some offset =>
      cases hposition : locate? (Text.dropMark text) offset with
      | some position =>
          simp only [ofFinding, hposition] at h
          cases h
      | none =>
          simp only [ofFinding, hposition] at h
          exact ⟨(Except.error.inj h).symm, locate?_eq_none_iff.1 hposition, Option.some_ne_none _⟩

theorem FileTree.checks_check (tree : FileTree) (inspect : Inspector) (input : Path) :
    Checks tree inspect input (tree.check inspect input) := by
  rw [check]
  rcases run_readText tree input with ⟨cause, hcause, hread⟩ | ⟨content, source, hcontent, hsource, hread⟩
  · rw [hread]
    exact .unread hcause
  · rw [hread]
    dsimp only
    rw [Checked.ofSource]
    rcases convert_cases source with ⟨done, hconvert⟩ | ⟨hconvert, hdeep⟩
    · rw [hconvert]
      rcases mapM_cases (Diagnostic.ofFinding done.text (Path.checkedName input.text)) (inspect done.text) with
        ⟨diagnostics, hmap, hdiagnostics⟩ | ⟨abort, hmap, finding, hfinding, hof⟩
      · have hdiagnose : diagnose inspect done.text (Path.checkedName input.text) = .ok diagnostics := hmap
        simp only [bind, Except.bind, hdiagnose]
        exact .checked hcontent hsource hconvert hdiagnostics
      · have hdiagnose : diagnose inspect done.text (Path.checkedName input.text) = .error abort := hmap
        obtain ⟨rfl, hempty, hplace⟩ := Diagnostic.ofFinding_eq_error hof
        simp only [bind, Except.bind, hdiagnose]
        exact .placeless hcontent hsource hconvert hempty hfinding hplace
    · rw [hconvert]
      exact .deep hcontent hsource hdeep

/-- The source can be read and has few braces, and if nothing is left of it, no finding there has a place. -/
def FileTree.Checkable (tree : FileTree) (inspect : Inspector) (input : Path) : Prop :=
  ∃ content source, tree.read input = .ok content ∧ textOfBytes? content = some source ∧
    source.count '{' < Region.maxHoleDepth ∧
    ∀ out, toTypeScript source = .ok out → Text.dropMark out = [] → ∀ finding ∈ inspect out, finding.offset = none

/-- A source can be checked if something is left of it. -/
theorem FileTree.checkable_of_left {tree : FileTree} {inspect : Inspector} {input : Path} {content : ByteArray}
    {source out : List Char} (hread : tree.read input = .ok content) (hsource : textOfBytes? content = some source)
    (hbraces : source.count '{' < Region.maxHoleDepth) (hout : toTypeScript source = .ok out)
    (hleft : Text.dropMark out ≠ []) : tree.Checkable inspect input := by
  refine ⟨content, source, hread, hsource, hbraces, fun out' hout' hempty => ?_⟩
  obtain rfl := Except.ok.inj (hout'.symm.trans hout)
  exact absurd hempty hleft

theorem FileTree.Checkable.check_eq {tree : FileTree} {inspect : Inspector} {input : Path}
    (h : tree.Checkable inspect input) : ∃ checked, tree.check inspect input = .ok checked := by
  obtain ⟨content, source, hread, hsource, hbraces, hplaces⟩ := h
  have hsame : ∀ {content' source'}, tree.read input = .ok content' → textOfBytes? content' = some source' →
      source' = source := by
    intro content' source' hread' hsource'
    obtain rfl := Except.ok.inj (hread'.symm.trans hread)
    exact Option.some.inj (hsource'.symm.trans hsource)
  have hchecks := tree.checks_check inspect input
  cases hcheck : tree.check inspect input with
  | ok checked => exact ⟨checked, rfl⟩
  | error e =>
      rw [hcheck] at hchecks
      cases hchecks with
      | unread hcause =>
          rcases hcause with herror | ⟨-, content', hread', hnone⟩
          · rw [hread] at herror
            cases herror
          · obtain rfl := Except.ok.inj (hread'.symm.trans hread)
            rw [hsource] at hnone
            cases hnone
      | deep hread' hsource' hdeep =>
          obtain rfl := hsame hread' hsource'
          exact absurd hbraces (Nat.not_lt.2 hdeep)
      | @placeless _ _ done _ hread' hsource' hconvert hempty hfinding hplace =>
          have hout : toTypeScript source = .ok done.text := by
            rw [toTypeScript, ← hsame hread' hsource', hconvert]
            rfl
          exact absurd (hplaces _ hout hempty _ hfinding) hplace

theorem FileTree.Unreadable.check_eq {tree : FileTree} {input : Path} {cause : FileError}
    (h : tree.Unreadable input cause) (inspect : Inspector) :
    tree.check inspect input = .error (.unreadable input cause) := by
  rcases h with hread | ⟨rfl, content, hread, hsource⟩
  · rw [check, Disk.readText, StateM.run_bind, run_read, hread]
    rfl
  · rw [check, Disk.readText, StateM.run_bind, run_read, hread]
    simp only [hsource]
    rfl

/-! ## What is printed of the reports -/

/-- The lines of the sources without errors. -/
def faultlessLines (done : List (Path × Checked)) : List Char :=
  (done.filter fun item => item.2.report.diagnostics = []).flatMap fun item => faultlessLine item.1

/-- The diagnostics of the sources with errors. -/
def faultyTexts (done : List (Path × Checked)) : List Char :=
  (done.filter fun item => item.2.report.diagnostics ≠ []).flatMap fun item => item.2.report.formatted ++ ['\n']

namespace LogFilter

/-- The log of the checks. -/
def checkLog (filter : LogFilter) (done : List (Path × Checked)) : List Char :=
  done.flatMap fun item => filter.lines item.2.events

/-- The log of the checks with the diagnostics in between, those of a source after its part of the log. -/
def checkErrors (filter : LogFilter) (done : List (Path × Checked)) : List Char :=
  done.flatMap fun item => filter.lines item.2.events ++ faultyTexts [item]

/-- Everything that can be told is beyond the level of an unset filter. -/
theorem lines_unset (events : List LogEvent) : lines [] events = [] := by
  have hshows : ∀ event ∈ events, shows [] event = false := fun event _ => by cases event <;> rfl
  rw [lines, List.filter_eq_nil_iff.2 fun event hevent => by rw [hshows event hevent]; exact Bool.false_ne_true]
  rfl

theorem checkLog_unset (done : List (Path × Checked)) : checkLog [] done = [] :=
  List.flatMap_eq_nil_iff.2 fun item _ => lines_unset item.2.events

end LogFilter

theorem faultlessLines_cons (item : Path × Checked) (done : List (Path × Checked)) :
    faultlessLines (item :: done) = faultlessLines [item] ++ faultlessLines done := by
  rw [← List.singleton_append, faultlessLines, List.filter_append, List.flatMap_append]
  rfl

theorem faultyTexts_cons (item : Path × Checked) (done : List (Path × Checked)) :
    faultyTexts (item :: done) = faultyTexts [item] ++ faultyTexts done := by
  rw [← List.singleton_append, faultyTexts, List.filter_append, List.flatMap_append]
  rfl

theorem LogFilter.checkErrors_unset (done : List (Path × Checked)) : checkErrors [] done = faultyTexts done := by
  induction done with
  | nil => rfl
  | cons item done ih =>
      rw [faultyTexts_cons, ← ih, checkErrors, List.flatMap_cons, lines_unset, List.nil_append]
      rfl

theorem printedReport_eq (item : Path × Checked) :
    printedReport item.1 item.2.report = (faultlessLines [item], faultyTexts [item]) := by
  cases hdiagnostics : item.2.report.diagnostics <;>
    simp [printedReport, Report.isFaulty, faultlessLines, faultyTexts, hdiagnostics]

/-! ## Several sources -/

/-- The sources of a list in order, each with what checking it gives. -/
structure FileTree.ChecksAll (tree : FileTree) (inspect : Inspector) (inputs : List Path)
    (done : List (Path × Checked)) : Prop where
  inputs_eq : inputs = done.map Prod.fst
  check_eq : ∀ item ∈ done, tree.check inspect item.1 = .ok item.2

/-- The first source of a list that gives no report, and before it the others with what checking them gives. -/
structure FileTree.ChecksUpTo (tree : FileTree) (inspect : Inspector) (inputs : List Path)
    (done : List (Path × Checked)) (input : Path) (e : CompileError) : Prop where
  inputs_eq : ∃ after, inputs = done.map Prod.fst ++ input :: after
  check_eq : ∀ item ∈ done, tree.check inspect item.1 = .ok item.2
  fails : tree.check inspect input = .error e

section

variable {tree : FileTree} {inspect : Inspector} {inputs : List Path} {done : List (Path × Checked)} {input : Path}
  {e : CompileError}

theorem FileTree.ChecksAll.cons {checked : Checked} (hinput : tree.check inspect input = .ok checked)
    (h : tree.ChecksAll inspect inputs done) : tree.ChecksAll inspect (input :: inputs) ((input, checked) :: done) where
  inputs_eq := congrArg (input :: ·) h.inputs_eq
  check_eq := List.forall_mem_cons.2 ⟨hinput, h.check_eq⟩

theorem FileTree.ChecksUpTo.cons {first : Path} {checked : Checked} (hfirst : tree.check inspect first = .ok checked)
    (h : tree.ChecksUpTo inspect inputs done input e) :
    tree.ChecksUpTo inspect (first :: inputs) ((first, checked) :: done) input e where
  inputs_eq := h.inputs_eq.imp fun _ hinputs => congrArg (first :: ·) hinputs
  check_eq := List.forall_mem_cons.2 ⟨hfirst, h.check_eq⟩
  fails := h.fails

theorem FileTree.checksAll_or_checksUpTo (tree : FileTree) (inspect : Inspector) (inputs : List Path) :
    (∃ done, tree.ChecksAll inspect inputs done) ∨ ∃ done input e, tree.ChecksUpTo inspect inputs done input e := by
  induction inputs with
  | nil => exact Or.inl ⟨[], rfl, List.forall_mem_nil _⟩
  | cons input rest ih =>
      cases hinput : tree.check inspect input with
      | error e => exact Or.inr ⟨[], input, e, ⟨rest, rfl⟩, List.forall_mem_nil _, hinput⟩
      | ok checked =>
          rcases ih with ⟨done, hall⟩ | ⟨done, failing, e, hupTo⟩
          · exact Or.inl ⟨_, hall.cons hinput⟩
          · exact Or.inr ⟨_, failing, e, hupTo.cons hinput⟩

/-- Sources that can be read give reports. -/
theorem FileTree.exists_checksAll (h : ∀ input ∈ inputs, tree.Checkable inspect input) :
    ∃ done, tree.ChecksAll inspect inputs done := by
  rcases tree.checksAll_or_checksUpTo inspect inputs with hall | ⟨done, input, e, hupTo⟩
  · exact hall
  · obtain ⟨after, hinputs⟩ := hupTo.inputs_eq
    obtain ⟨checked, hchecked⟩ := (h input (by simp [hinputs])).check_eq
    have hfails := hupTo.fails
    rw [hchecked] at hfails
    cases hfails

/-- The sources before one that cannot be read give reports. -/
theorem FileTree.Unreadable.exists_checksUpTo {before : List Path} {cause : FileError} (h : tree.Unreadable input cause)
    (hbefore : ∀ earlier ∈ before, tree.Checkable inspect earlier) (after : List Path) :
    ∃ done, done.map Prod.fst = before ∧
      tree.ChecksUpTo inspect (before ++ input :: after) done input (.unreadable input cause) := by
  obtain ⟨done, rfl, hdone⟩ := FileTree.exists_checksAll hbefore
  exact ⟨done, rfl, ⟨after, rfl⟩, hdone, h.check_eq inspect⟩

/-- All sources of a list give a report, or the first that gives none cannot be read or breaks the run off. -/
theorem FileTree.checksAll_cases (tree : FileTree) (inspect : Inspector) (inputs : List Path) :
    (∃ done, tree.ChecksAll inspect inputs done) ∨
      (∃ done input cause, tree.ChecksUpTo inspect inputs done input (.unreadable input cause) ∧
        tree.Unreadable input cause) ∨
      ∃ done input abort, tree.ChecksUpTo inspect inputs done input (.aborted abort) := by
  rcases tree.checksAll_or_checksUpTo inspect inputs with hall | ⟨done, input, e, hupTo⟩
  · exact Or.inl hall
  · have hinput := tree.checks_check inspect input
    rw [hupTo.fails] at hinput
    cases hinput with
    | unread hcause => exact Or.inr (Or.inl ⟨done, input, _, hupTo, hcause⟩)
    | deep | placeless => exact Or.inr (Or.inr ⟨done, input, _, hupTo⟩)

end

section

variable (inspect : Inspector) (filter : LogFilter) (asJson : Bool) (tree : FileTree)

theorem run_checkAll_cons (input : Path) (rest : List Path) :
    (checkAll disk inspect filter asJson (input :: rest)).run tree =
      match tree.check inspect input with
      | .error e => (⟨[], [], .error e⟩, tree)
      | .ok checked =>
        let printed := if asJson then ([], []) else printedReport input checked.report
        let others := (checkAll disk inspect filter asJson rest).run tree
        (⟨printed.1 ++ others.1.output, filter.lines checked.events ++ printed.2 ++ others.1.errors,
          others.1.outcome.map (checked.report :: ·)⟩, others.2) := by
  rw [checkAll, StateM.run_bind, check]
  rcases run_readText tree input with ⟨cause, -, hread⟩ | ⟨content, source, -, -, hread⟩
  · rw [hread]
    rfl
  · rw [hread]
    dsimp only
    cases Checked.ofSource inspect source input.text <;> rfl

/-- Sources that give reports are checked before the others, and the tree is the same for these. -/
theorem run_checkAll_append {done : List (Path × Checked)} (rest : List Path)
    (h : ∀ item ∈ done, tree.check inspect item.1 = .ok item.2) :
    (checkAll disk inspect filter asJson (done.map Prod.fst ++ rest)).run tree =
      let others := (checkAll disk inspect filter asJson rest).run tree
      (⟨(if asJson then [] else faultlessLines done) ++ others.1.output,
        (if asJson then filter.checkLog done else filter.checkErrors done) ++ others.1.errors,
        others.1.outcome.map (done.map (·.2.report) ++ ·)⟩, others.2) := by
  induction done with
  | nil =>
      dsimp only
      rw [List.map_nil, List.map_nil, map_nil_append]
      cases asJson <;> rfl
  | cons item done ih =>
      obtain ⟨hitem, hdone⟩ := List.forall_mem_cons.1 h
      rw [List.map_cons, List.cons_append, run_checkAll_cons, hitem, ih hdone]
      dsimp only
      rw [printedReport_eq]
      generalize (checkAll disk inspect filter asJson rest).run tree = others
      have hmap : ∀ outcome : Except CompileError (List Report),
          (outcome.map (done.map (·.2.report) ++ ·)).map (item.2.report :: ·) =
            outcome.map ((item :: done).map (·.2.report) ++ ·) := fun outcome => by cases outcome <;> rfl
      rw [hmap]
      cases asJson with
      | true =>
          simp only [if_true, List.nil_append, List.append_nil, LogFilter.checkLog, List.flatMap_cons, List.append_assoc]
      | false =>
          rw [faultlessLines_cons item done]
          simp only [Bool.false_eq_true, if_false, LogFilter.checkErrors, List.flatMap_cons, List.append_assoc]

variable {inspect tree} {inputs : List Path} {done : List (Path × Checked)}

theorem FileTree.ChecksAll.run_runCheck (h : tree.ChecksAll inspect inputs done) :
    (runCheck disk inspect filter asJson inputs).run tree =
      (⟨if ∃ item ∈ done, item.2.report.diagnostics ≠ [] then Outcome.failure else Outcome.success,
        if asJson then Report.pretty (done.map (·.2.report)) ++ ['\n'] else faultlessLines done,
        if asJson then filter.checkLog done else filter.checkErrors done⟩, tree) := by
  have hrun := run_checkAll_append inspect filter asJson tree [] h.check_eq
  have hnil : (checkAll disk inspect filter asJson []).run tree = (⟨[], [], .ok []⟩, tree) := rfl
  rw [List.append_nil, ← h.inputs_eq, hnil] at hrun
  simp only [Except.map, List.append_nil] at hrun
  have hfaulty : (done.map (·.2.report)).any Report.isFaulty = true ↔ ∃ item ∈ done, item.2.report.diagnostics ≠ [] := by
    simp [Report.isFaulty]
  rw [runCheck, StateM.run_bind, hrun]
  dsimp only
  simp only [hfaulty]
  cases asJson with
  | true => rfl
  | false => simp only [Bool.false_eq_true, if_false, List.append_nil]; rfl

theorem FileTree.ChecksUpTo.run_runCheck {input : Path} {e : CompileError}
    (h : tree.ChecksUpTo inspect inputs done input e) :
    (runCheck disk inspect filter asJson inputs).run tree =
      (⟨e.status, if asJson then [] else faultlessLines done,
        (if asJson then filter.checkLog done else filter.checkErrors done) ++ e.report⟩, tree) := by
  obtain ⟨after, hinputs⟩ := h.inputs_eq
  rw [hinputs, runCheck, StateM.run_bind, run_checkAll_append inspect filter asJson tree (input :: after) h.check_eq,
    run_checkAll_cons, h.fails]
  simp only [Except.map, List.append_nil]
  rfl

end

/-- Checking sources leaves the tree as it is. When all of them can be read, each gives a report, and the run fails if one of
these has a diagnostic, with or without JSON: line by line it prints a line for each source without diagnostics and the
diagnostics of the others, and as JSON one array of all the reports. The first source that cannot be read, or gives no report
for another reason, ends the run with a failure: line by line what was found before stands printed, and of the array
nothing. -/
theorem check_reports_in_order (inspect : Inspector) (filter : LogFilter) (tree : FileTree) (inputs : List Path) :
    let run := fun asJson => (runSettings disk inspect filter ⟨inputs, none, true, asJson⟩).run tree
    (∀ input, Checks tree inspect input (tree.check inspect input)) ∧
    ((∀ input ∈ inputs, tree.Checkable inspect input) → ∃ done, tree.ChecksAll inspect inputs done) ∧
    (∀ before input after cause, inputs = before ++ input :: after →
      (∀ earlier ∈ before, tree.Checkable inspect earlier) → tree.Unreadable input cause →
        ∃ done, done.map Prod.fst = before ∧ tree.ChecksUpTo inspect inputs done input (.unreadable input cause)) ∧
    ((∃ done, tree.ChecksAll inspect inputs done) ∨
      (∃ done input cause, tree.ChecksUpTo inspect inputs done input (.unreadable input cause) ∧
        tree.Unreadable input cause) ∨
      ∃ done input abort, tree.ChecksUpTo inspect inputs done input (.aborted abort)) ∧
    (∀ done, tree.ChecksAll inspect inputs done →
      let status := if ∃ item ∈ done, item.2.report.diagnostics ≠ [] then Outcome.failure else Outcome.success
      run false = (⟨status, faultlessLines done, filter.checkErrors done⟩, tree) ∧
      run true = (⟨status, Report.pretty (done.map (·.2.report)) ++ ['\n'], filter.checkLog done⟩, tree)) ∧
    (∀ done input e, tree.ChecksUpTo inspect inputs done input e →
      run false = (⟨e.status, faultlessLines done, filter.checkErrors done ++ e.report⟩, tree) ∧
      run true = (⟨e.status, [], filter.checkLog done ++ e.report⟩, tree) ∧
      e.status ≠ Outcome.success ∧ ((∀ abort, e ≠ .aborted abort) → e.status = Outcome.failure)) ∧
    ∀ done, LogFilter.checkErrors [] done = faultyTexts done ∧ LogFilter.checkLog [] done = [] := by
  intro run
  refine ⟨tree.checks_check inspect, FileTree.exists_checksAll, ?_, tree.checksAll_cases inspect inputs,
    fun done hall => ?_, fun done input e hupTo => ?_,
    fun done => ⟨LogFilter.checkErrors_unset done, LogFilter.checkLog_unset done⟩⟩
  · rintro before input after cause rfl hbefore hcause
    exact hcause.exists_checksUpTo hbefore after
  · exact ⟨hall.run_runCheck filter false, hall.run_runCheck filter true⟩
  · exact ⟨hupTo.run_runCheck filter false, hupTo.run_runCheck filter true, e.status_ne_success, e.status_eq_failure⟩

/-- A tree with the sources `a.ks` without errors and `b.ks` with one, and no `c.ks`. -/
def cleanAndFaulty : FileTree :=
  ⟨["home".toList],
    [(["home".toList, "a.ks".toList], .file (bytesOfText "상수 x = 1;".toList)),
      (["home".toList, "b.ks".toList], .file (bytesOfText "상수 x = ;".toList)), (["home".toList], .directory)]⟩

/-- An error is not lost when a source without one comes after it, and the source that is missing ends the run. -/
theorem check_reports_clean_and_faulty :
    let a := Path.ofString "a.ks"
    let b := Path.ofString "b.ks"
    let c := Path.ofString "c.ks"
    let tree := cleanAndFaulty
    let inspect := TypeScript.findings
    let run := fun inputs asJson => (runSettings disk inspect [] ⟨inputs, none, true, asJson⟩).run tree
    (∀ input ∈ [b, a], tree.Checkable inspect input) ∧ tree.Unreadable c .missing ∧
      ∃ clean faulty : Checked, clean.report.diagnostics = [] ∧ faulty.report.diagnostics ≠ [] ∧
        tree.ChecksAll inspect [b, a] [(b, faulty), (a, clean)] ∧
        run [b, a] false = (⟨Outcome.failure, faultlessLine a, faulty.report.formatted ++ ['\n']⟩, tree) ∧
        run [b, a] true =
          (⟨Outcome.failure, Report.pretty [faulty.report, clean.report] ++ ['\n'], []⟩, tree) ∧
        tree.ChecksUpTo inspect [a, c, b] [(a, clean)] c (.unreadable c .missing) ∧
        run [a, c, b] false = (⟨Outcome.failure, faultlessLine a, (CompileError.unreadable c .missing).report⟩, tree) ∧
        run [a, c, b] true = (⟨Outcome.failure, [], (CompileError.unreadable c .missing).report⟩, tree) := by
  intro a b c tree inspect run
  have hchecka : tree.Checkable inspect a := by
    have hread : tree.read a = .ok (bytesOfText "상수 x = 1;".toList) := by decide +kernel
    have hout : toTypeScript "상수 x = 1;".toList = .ok "const x = 1;".toList := by decide +kernel
    exact FileTree.checkable_of_left hread (by decide +kernel) (by decide) hout (by decide)
  have hcheckb : tree.Checkable inspect b := by
    have hread : tree.read b = .ok (bytesOfText "상수 x = ;".toList) := by decide +kernel
    have hout : toTypeScript "상수 x = ;".toList = .ok "const x = ;".toList := by decide +kernel
    exact FileTree.checkable_of_left hread (by decide +kernel) (by decide) hout (by decide)
  have hmissing : tree.Unreadable c .missing := Or.inl (by decide +kernel)
  have hcheckba : ∀ input ∈ [b, a], tree.Checkable inspect input := by simp [hchecka, hcheckb]
  have hcheckfirst : ∀ input ∈ [a], tree.Checkable inspect input := by simp [hchecka]
  obtain ⟨-, hall, -, -, hboth, -, hunset⟩ := check_reports_in_order inspect [] tree [b, a]
  obtain ⟨-, -, hfirst, -, -, hends, -⟩ := check_reports_in_order inspect [] tree [a, c, b]
  obtain ⟨done, hdone⟩ := hall hcheckba
  obtain ⟨done', hdone', hupTo⟩ := hfirst [a] c [b] .missing rfl hcheckfirst hmissing
  obtain ⟨⟨_, faulty⟩, rest, rfl, rfl, hrest⟩ := List.map_eq_cons_iff.1 hdone.inputs_eq.symm
  obtain ⟨⟨_, clean⟩, rest, rfl, rfl, hnil⟩ := List.map_eq_cons_iff.1 hrest
  obtain rfl := List.map_eq_nil_iff.1 hnil
  obtain ⟨⟨_, clean'⟩, rest, rfl, rfl, hnil⟩ := List.map_eq_cons_iff.1 hdone'
  obtain rfl := List.map_eq_nil_iff.1 hnil
  have hfaulty : tree.check inspect b = .ok faulty := hdone.check_eq (b, faulty) (by simp)
  have hclean : tree.check inspect a = .ok clean := hdone.check_eq (a, clean) (by simp)
  obtain rfl : clean' = clean := Except.ok.inj ((hupTo.check_eq (a, clean') (by simp)).symm.trans hclean)
  have hempty : (tree.check inspect a).map (·.report.diagnostics.isEmpty) = .ok true := by decide +kernel
  have hfull : (tree.check inspect b).map (·.report.diagnostics.isEmpty) = .ok false := by decide +kernel
  rw [hclean] at hempty
  rw [hfaulty] at hfull
  have hnone : clean'.report.diagnostics = [] := List.isEmpty_iff.1 (Except.ok.inj hempty)
  have hsome : faulty.report.diagnostics ≠ [] := List.isEmpty_eq_false_iff.1 (Except.ok.inj hfull)
  obtain ⟨htext, hjson⟩ := hboth _ hdone
  obtain ⟨htext', hjson', -⟩ := hends _ _ _ hupTo
  simp only [(hunset _).1, (hunset _).2] at htext hjson htext' hjson'
  refine ⟨hcheckba, hmissing, clean', faulty, hnone, hsome, hdone, htext.trans ?_, hjson.trans ?_, hupTo, htext'.trans ?_,
    hjson'⟩ <;>
    simp [faultlessLines, faultyTexts, hnone, hsome, CompileError.status]

/-- A readable source of which nothing is left, in which a reader of TypeScript still finds a place to report, gives no
report: the run is broken off and prints no array. -/
theorem placed_finding_in_empty_source_breaks_off :
    let a := Path.ofString "a.ks"
    let tree : FileTree :=
      ⟨["home".toList], [(["home".toList, "a.ks".toList], .file (bytesOfText [])), (["home".toList], .directory)]⟩
    let inspect : Inspector := fun _ => [⟨"Expression expected".toList, some 0⟩]
    let run := fun asJson => ((runSettings disk inspect [] ⟨[a], none, true, asJson⟩).run tree).1
    tree.read a = .ok (bytesOfText []) ∧ textOfBytes? (bytesOfText []) = some [] ∧
      (run false).status = Outcome.broken ∧ (run true).status = Outcome.broken ∧ (run true).output = [] ∧
      ∀ reports, (run true).output ≠ Report.pretty reports ++ ['\n'] := by
  intro a tree inspect run
  have hread : tree.read a = .ok (bytesOfText []) := by decide +kernel
  have hsource : textOfBytes? (bytesOfText []) = some [] := by decide +kernel
  have hbroken : (run false).status = Outcome.broken ∧ (run true).status = Outcome.broken ∧ (run true).output = [] := by
    decide +kernel
  obtain ⟨hlines, harray, houtput⟩ := hbroken
  refine ⟨hread, hsource, hlines, harray, houtput, fun reports => ?_⟩
  rw [houtput]
  exact (List.append_ne_nil_of_right_ne_nil _ (List.cons_ne_nil _ _)).symm

end HangulScript

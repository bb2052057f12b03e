import HangulScript.Command.Compile
import HangulScript.Proofs.Files.Steps

/-!
# What compiling a file leaves

Compiling a file can fail at four points: at the comparison of the two paths, at the source, at the directories and at the
output. What is left of the tree tells how far it came.
-/

namespace HangulScript

/-- The directories around the last component, from the inside outwards. -/
def Path.around (path : Path) : List Path :=
  match path.parent? with
  | none => []
  | some directory => directory.ancestors

/-- The directories around a path and nothing else come to the tree. -/
abbrev FileTree.GrowsAround (tree : FileTree) (path : Path) (grown : FileTree) : Prop :=
  tree.Grows (· ∈ path.around.map tree.locate) grown

/-- There is no text to read at a path: no file, or one with bytes that spell none. -/
def FileTree.Unreadable (tree : FileTree) (input : Path) (cause : FileError) : Prop :=
  tree.read input = .error cause ∨
    cause = .invalidText ∧ ∃ content, tree.read input = .ok content ∧ textOfBytes? content = none

/-- What compiling a file can come to, and the tree that it leaves. -/
inductive Compiles (tree : FileTree) (input output : Path) : Except CompileError (List Char) → FileTree → Prop
  | refused (hsame : input.sameAs output = true) : Compiles tree input output (.error (.overwrites input)) tree
  | unread {cause : FileError} (hother : input.sameAs output = false) (hcause : tree.Unreadable input cause) :
      Compiles tree input output (.error (.unreadable input cause)) tree
  | aborted {abort : Abort} (hother : input.sameAs output = false) :
      Compiles tree input output (.error (.aborted abort)) tree
  | uncreated {directory : Path} {cause : FileError} {grown : FileTree} (hother : input.sameAs output = false)
      (hgrows : tree.GrowsAround output grown) :
      Compiles tree input output (.error (.uncreatable directory cause)) grown
  | unwritten {cause : FileError} {grown : FileTree} (hother : input.sameAs output = false)
      (hgrows : tree.GrowsAround output grown) :
      Compiles tree input output (.error (.unwritable output cause)) grown
  | written {content : ByteArray} {source text : List Char} {grown final : FileTree}
      (hother : input.sameAs output = false) (hread : tree.read input = .ok content)
      (hsource : textOfBytes? content = some source) (htext : toTypeScript source = .ok text)
      (hgrows : tree.GrowsAround output grown) (hwrite : grown.write output (bytesOfText text) = .ok final) :
      Compiles tree input output (.ok text) final

/-! ## Runs over a state -/

theorem StateM.run_bind {σ α β : Type} (x : StateM σ α) (f : α → StateM σ β) (s : σ) :
    (x >>= f).run s = (f (x.run s).1).run (x.run s).2 := rfl

theorem map_nil_append {ε α : Type} (outcome : Except ε (List α)) : outcome.map ([] ++ ·) = outcome := by
  cases outcome <;> rfl

namespace FileTree

variable {tree : FileTree} {input output : Path} {text : List Char}

theorem run_read (tree : FileTree) (path : Path) : (disk.read path).run tree = (tree.read path, tree) := rfl

theorem run_createDirectories (tree : FileTree) (path : Path) :
    (disk.createDirectories path).run tree = tree.createDirectories path := rfl

theorem run_write (tree : FileTree) (path : Path) (content : ByteArray) :
    (disk.write path content).run tree =
      match tree.write path content with
      | .ok changed => (.ok (), changed)
      | .error e => (.error e, tree) := rfl

/-- Reading a source gives its text or the reason why there is none, and changes nothing. -/
theorem run_readText (tree : FileTree) (input : Path) :
    (∃ cause, tree.Unreadable input cause ∧
        (disk.readText input).run tree = (.error (.unreadable input cause), tree)) ∨
      ∃ content source, tree.read input = .ok content ∧ textOfBytes? content = some source ∧
        (disk.readText input).run tree = (.ok source, tree) := by
  rw [Disk.readText, StateM.run_bind, run_read]
  cases hread : tree.read input with
  | error cause => exact Or.inl ⟨cause, Or.inl hread, rfl⟩
  | ok content =>
      cases hsource : textOfBytes? content with
      | none => exact Or.inl ⟨.invalidText, Or.inr ⟨rfl, content, hread, hsource⟩, by simp only [hsource]; rfl⟩
      | some source => exact Or.inr ⟨content, source, rfl, hsource, by simp only [hsource]; rfl⟩

/-- The directories around an output are created, or some of them and the reason why not all. -/
theorem run_createAround (tree : FileTree) (output : Path) :
    ∃ grown, tree.GrowsAround output grown ∧
      ((disk.createAround output).run tree = (.ok (), grown) ∨
        ∃ directory cause, (disk.createAround output).run tree = (.error (.uncreatable directory cause), grown)) := by
  unfold Disk.createAround
  cases hparent : output.parent? with
  | none => exact ⟨tree, Grows.refl _ tree, Or.inl rfl⟩
  | some directory =>
      by_cases hempty : directory.text = []
      · exact ⟨tree, Grows.refl _ tree, Or.inl (by simp only [hempty, if_true]; rfl)⟩
      · have hgrows : tree.GrowsAround output (tree.createDirectories directory).2 := by
          rw [GrowsAround, Path.around, hparent]
          exact createDirectories_grows tree directory
        refine ⟨_, hgrows, ?_⟩
        simp only [hempty, if_false, StateM.run_bind, run_createDirectories]
        cases (tree.createDirectories directory).1 with
        | ok done => exact Or.inl rfl
        | error cause => exact Or.inr ⟨directory, cause, rfl⟩

theorem run_store (tree : FileTree) (output : Path) (text : List Char) :
    ∃ grown, tree.GrowsAround output grown ∧
      ((∃ directory cause, (disk.store output text).run tree = (.error (.uncreatable directory cause), grown)) ∨
        (∃ cause, (disk.store output text).run tree = (.error (.unwritable output cause), grown)) ∨
        ∃ final, grown.write output (bytesOfText text) = .ok final ∧
          (disk.store output text).run tree = (.ok (), final)) := by
  obtain ⟨grown, hgrows, hcreate | ⟨directory, cause, hcreate⟩⟩ := run_createAround tree output
  · refine ⟨grown, hgrows, Or.inr ?_⟩
    simp only [Disk.store, StateM.run_bind, hcreate, run_write]
    cases hwrite : grown.write output (bytesOfText text) with
    | ok final => exact Or.inr ⟨final, rfl, rfl⟩
    | error cause => exact Or.inl ⟨cause, rfl⟩
  · refine ⟨grown, hgrows, Or.inl ⟨directory, cause, ?_⟩⟩
    simp only [Disk.store, StateM.run_bind, hcreate]
    rfl

/-- Compiling a file over a tree does nothing but what `Compiles` says. -/
theorem run_compile (tree : FileTree) (input output : Path) :
    Compiles tree input output ((disk.compile input output).run tree).1.outcome
      ((disk.compile input output).run tree).2 := by
  unfold Disk.compile
  cases hsame : input.sameAs output with
  | true => exact .refused hsame
  | false =>
      simp only [Bool.false_eq_true, if_false, StateM.run_bind]
      rcases run_readText tree input with ⟨cause, hcause, hread⟩ | ⟨content, source, hcontent, hsource, hread⟩
      · rw [hread]
        exact .unread hsame hcause
      · rw [hread]
        dsimp only
        cases hconvert : convert {} source with
        | error abort => exact .aborted hsame
        | ok done =>
            have htext : toTypeScript source = .ok done.text := by rw [toTypeScript, hconvert]; rfl
            simp only [StateM.run_bind]
            obtain ⟨grown, hgrows, ⟨directory, cause, hstore⟩ | ⟨cause, hstore⟩ | ⟨final, hwrite, hstore⟩⟩ :=
              run_store tree output done.text
            · rw [hstore]
              exact .uncreated hsame hgrows
            · rw [hstore]
              exact .unwritten hsame hgrows
            · rw [hstore]
              exact .written hsame hcontent hsource htext hgrows hwrite

end FileTree

namespace Compiles

variable {tree final : FileTree} {input output path : Path} {outcome : Except CompileError (List Char)}

open FileTree

/-- Whatever leads through the tree before leads through it afterwards. -/
theorem carries (h : Compiles tree input output outcome final) : Carries tree final := by
  cases h with
  | refused | unread | aborted => exact Carries.refl tree
  | uncreated _ hgrows | unwritten _ hgrows => exact hgrows.carries
  | written _ _ _ _ hgrows hwrite => exact hgrows.carries.trans (write_carries hwrite)

/-- Compiling changes what stands at a place only if the output is put there. -/
theorem get?_eq {entry : Entry} {place : Location} (h : Compiles tree input output outcome final)
    (hget : tree.get? place = some entry) :
    final.get? place = some entry ∨
      place = tree.locate output ∧ ∃ text, outcome = .ok text ∧ input.sameAs output = false ∧
        final.get? place = some (.file (bytesOfText text)) := by
  cases h with
  | refused | unread | aborted => exact Or.inl hget
  | uncreated _ hgrows | unwritten _ hgrows => exact Or.inl (hgrows.get?_eq hget)
  | @written _ _ text _ _ hother _ _ _ hgrows hwrite =>
      rw [write_get? hwrite, hgrows.carries.locate]
      split_ifs with hplace
      · exact Or.inr ⟨hplace, text, rfl, hother, rfl⟩
      · exact Or.inl (hgrows.get?_eq hget)

/-- A file that was read before is read afterwards, unless the output is put at its place. -/
theorem read_eq {content : ByteArray} (h : Compiles tree input output outcome final)
    (hread : tree.read path = .ok content) :
    final.read path = .ok content ∨
      tree.locate path = tree.locate output ∧ input.sameAs output = false ∧
        ∃ text, outcome = .ok text ∧ final.read path = .ok (bytesOfText text) := by
  obtain ⟨hresolve, hget⟩ := read_eq_ok_iff.1 hread
  have hresolve' := h.carries.resolve hresolve
  rw [read_eq_ok_iff, h.carries.locate]
  rcases h.get?_eq hget with hsame | ⟨hplace, text, houtcome, hother, hnew⟩
  · exact Or.inl ⟨hresolve', hsame⟩
  · refine Or.inr ⟨hplace, hother, text, houtcome, ?_⟩
    rw [read_eq_ok_iff, h.carries.locate]
    exact ⟨hresolve', hnew⟩

end Compiles

/-! ## The source -/

variable {tree : FileTree} {input : Path} {directory : Option Path} {content : ByteArray}

/-- Compiling leaves the source as it was, unless the chosen directory leads back to it by a path with other components:
then the source is replaced by its own translation. -/
theorem compile_keeps_source (hread : tree.read input = .ok content) :
    let output := input.generated directory
    let done := (FileTree.disk.compile input output).run tree
    done.2.read input = .ok content ∨
      directory.isSome = true ∧ tree.locate output = tree.locate input ∧ input.sameAs output = false ∧
        ∃ source text, textOfBytes? content = some source ∧ toTypeScript source = .ok text ∧
          done.1.outcome = .ok text ∧ done.2.read input = .ok (bytesOfText text) := by
  intro output done
  have hcompiles : Compiles tree input output done.1.outcome done.2 := FileTree.run_compile tree input output
  rcases hcompiles.read_eq hread with hkept | ⟨hplace, hother, text, houtcome, hnew⟩
  · exact Or.inl hkept
  · refine Or.inr ⟨?_, hplace.symm, hother, ?_⟩
    · cases directory with
      | none =>
          have hsame : input.sameAs output = true := Path.sameAs_of_locate_generated hplace.symm
          rw [hsame] at hother
          cases hother
      | some chosen => rfl
    · rw [houtcome] at hcompiles
      cases hcompiles with
      | written _ hread' hsource htext =>
          rw [hread] at hread'
          obtain rfl := Except.ok.inj hread'
          exact ⟨_, text, hsource, htext, houtcome, hnew⟩

/-- A tree with one source, `a.ts`, in its working directory. -/
def oneSource : FileTree :=
  ⟨["home".toList], [(["home".toList, "a.ts".toList], .file (bytesOfText "상수".toList)), (["home".toList], .directory)]⟩

theorem compile_keeps_source_beside_others :
    oneSource.read (.ofString "a.ts") = .ok (bytesOfText "상수".toList) ∧
      let input := Path.ofString "a.ts"
      let output := input.generated (some (.ofString "../out"))
      let done := (FileTree.disk.compile input output).run oneSource
      done.2.read input = .ok (bytesOfText "상수".toList) ∨
        (some (Path.ofString "../out")).isSome = true ∧ oneSource.locate output = oneSource.locate input ∧
          input.sameAs output = false ∧
          ∃ source text, textOfBytes? (bytesOfText "상수".toList) = some source ∧ toTypeScript source = .ok text ∧
            done.1.outcome = .ok text ∧ done.2.read input = .ok (bytesOfText text) :=
  ⟨by decide +kernel, compile_keeps_source (by decide +kernel)⟩

/-- The directory `.` leads back to the source, and the paths `a.ts` and `./a.ts` have other components. -/
theorem dot_directory_overwrites_source :
    let input := Path.ofString "a.ts"
    let done := (FileTree.disk.compile input (input.generated (some (.ofString ".")))).run oneSource
    oneSource.read input = .ok (bytesOfText "상수".toList) ∧ done.1.outcome = .ok "const".toList ∧
      done.2.read input = .ok (bytesOfText "const".toList) ∧
      bytesOfText "const".toList ≠ bytesOfText "상수".toList := by
  decide +kernel

end HangulScript

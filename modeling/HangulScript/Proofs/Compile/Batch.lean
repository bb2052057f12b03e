import HangulScript.Command.Outcome
import HangulScript.Proofs.Compile.Effect

/-!
# Compiling several files

Files are compiled one after the other over one tree. After a run that succeeds each output holds the translation of the
last source that was compiled to it, and a source is translated as it was before the run unless an output came to its place.
-/

namespace HangulScript

open FileTree

/-! ## Runs in order -/

section

variable {σ : Type} (disk : Disk (StateM σ)) (directory : Option Path)

theorem run_compileAll_cons (input : Path) (rest : List Path) (s : σ) :
    (disk.compileAll directory (input :: rest)).run s =
      let first := (disk.compile input (input.generated directory)).run s
      match first.1.outcome with
      | .error e => (⟨first.1.events, .error e⟩, first.2)
      | .ok _ =>
        let others := (disk.compileAll directory rest).run first.2
        (⟨first.1.events ++ others.1.events, others.1.outcome.map (input.generated directory :: ·)⟩, others.2) := by
  rw [Disk.compileAll, StateM.run_bind]
  dsimp only
  cases ((disk.compile input (input.generated directory)).run s).1.outcome <;> rfl

/-- A batch is compiled like its first part and then, if that succeeds, its second part. -/
theorem run_compileAll_append (first rest : List Path) (s : σ) :
    (disk.compileAll directory (first ++ rest)).run s =
      let done := (disk.compileAll directory first).run s
      match done.1.outcome with
      | .error e => (⟨done.1.events, .error e⟩, done.2)
      | .ok outputs =>
        let others := (disk.compileAll directory rest).run done.2
        (⟨done.1.events ++ others.1.events, others.1.outcome.map (outputs ++ ·)⟩, others.2) := by
  induction first generalizing s with
  | nil =>
      change _ = (Compilation.mk ([] ++ _) (Except.map ([] ++ ·) _), _)
      rw [List.nil_append, map_nil_append]
      rfl
  | cons input first ih =>
      rw [List.cons_append, run_compileAll_cons, run_compileAll_cons]
      dsimp only
      cases ((disk.compile input (input.generated directory)).run s).1.outcome with
      | error e => rfl
      | ok text =>
          dsimp only
          rw [ih]
          dsimp only
          generalize (disk.compileAll directory first).run _ = done
          cases done.1.outcome with
          | error e => rfl
          | ok outputs =>
              dsimp only [Except.map]
              generalize (disk.compileAll directory rest).run done.2 = others
              rw [List.append_assoc]
              cases others.1.outcome <;> rfl

/-- A batch that succeeds is announced line by line. -/
theorem run_runCompile_ok {inputs outputs : List Path} {s : σ} (filter : LogFilter)
    (h : ((disk.compileAll directory inputs).run s).1.outcome = .ok outputs) :
    (runCompile disk filter directory inputs).run s =
      (⟨Outcome.success, outputs.flatMap createdLine, filter.lines ((disk.compileAll directory inputs).run s).1.events⟩,
        ((disk.compileAll directory inputs).run s).2) := by
  simp only [runCompile, StateM.run_bind, h]
  rfl

end

variable {directory : Option Path} {tree final : FileTree} {inputs before after outputs : List Path} {input path : Path}

/-! ## Batches that succeed -/

/-- Files compiled one after the other, each over the tree that the one before it left. -/
inductive CompilesAll (directory : Option Path) : FileTree → List Path → FileTree → Prop
  | nil {tree : FileTree} : CompilesAll directory tree [] tree
  | cons {tree between final : FileTree} {input : Path} {rest : List Path} {text : List Char}
      (h : Compiles tree input (input.generated directory) (.ok text) between)
      (hrest : CompilesAll directory between rest final) : CompilesAll directory tree (input :: rest) final

theorem run_compileAll_ok (h : ((disk.compileAll directory inputs).run tree).1.outcome = .ok outputs) :
    outputs = inputs.map (·.generated directory) ∧
      CompilesAll directory tree inputs ((disk.compileAll directory inputs).run tree).2 := by
  induction inputs generalizing tree outputs with
  | nil => exact ⟨(Except.ok.inj h).symm, .nil⟩
  | cons input rest ih =>
      rw [run_compileAll_cons] at h ⊢
      have hfirst := run_compile tree input (input.generated directory)
      dsimp only at h ⊢
      cases hinput : ((disk.compile input (input.generated directory)).run tree).1.outcome with
      | error e =>
          rw [hinput] at h
          cases h
      | ok text =>
          rw [hinput] at h hfirst
          dsimp only at h ⊢
          cases hothers : ((disk.compileAll directory rest).run
              ((disk.compile input (input.generated directory)).run tree).2).1.outcome with
          | error e =>
              rw [hothers] at h
              cases h
          | ok others =>
              rw [hothers] at h
              obtain ⟨rfl, hrest⟩ := ih hothers
              exact ⟨(Except.ok.inj h).symm, .cons hfirst hrest⟩

theorem CompilesAll.carries (h : CompilesAll directory tree inputs final) : Carries tree final := by
  induction h with
  | nil => exact Carries.refl _
  | cons hfirst _ ih => exact hfirst.carries.trans ih

/-- A file is left as it was by inputs that are compiled to other places. -/
theorem CompilesAll.read_eq {content : ByteArray} (h : CompilesAll directory tree inputs final)
    (hread : tree.read path = .ok content)
    (hother : ∀ input ∈ inputs, tree.locate (input.generated directory) ≠ tree.locate path) :
    final.read path = .ok content := by
  induction h with
  | nil => exact hread
  | @cons tree between final input rest text hfirst hrest ih =>
      have hlocate := hfirst.carries.locate
      have hkept : between.read path = .ok content :=
        (hfirst.read_eq hread).resolve_right fun hplace => hother input List.mem_cons_self hplace.1.symm
      refine ih hkept fun later hlater => ?_
      rw [hlocate, hlocate]
      exact hother later (List.mem_cons_of_mem input hlater)

/-- A file that compiling did not put at a place stood there before. -/
theorem Compiles.of_get? {output : Path} {outcome : Except CompileError (List Char)} {place : Location}
    {content : ByteArray} (h : Compiles tree input output outcome final)
    (hget : final.get? place = some (.file content)) (hother : tree.locate output ≠ place) :
    tree.get? place = some (.file content) := by
  have hgrown : ∀ {grown : FileTree}, tree.GrowsAround output grown → grown.get? place = some (.file content) →
      tree.get? place = some (.file content) := by
    intro grown hgrows hfile
    rcases hgrows.entries place with hsame | ⟨-, hdir, -⟩
    · rw [← hsame, hfile]
    · rw [hdir] at hfile
      cases hfile
  cases h with
  | refused | unread | aborted => exact hget
  | uncreated _ hgrows | unwritten _ hgrows => exact hgrown hgrows hget
  | written _ _ _ _ hgrows hwrite =>
      rw [write_get? hwrite, hgrows.carries.locate, if_neg (Ne.symm hother)] at hget
      exact hgrown hgrows hget

theorem CompilesAll.of_get? {place : Location} {content : ByteArray} (h : CompilesAll directory tree inputs final)
    (hget : final.get? place = some (.file content))
    (hother : ∀ input ∈ inputs, tree.locate (input.generated directory) ≠ place) :
    tree.get? place = some (.file content) := by
  induction h with
  | nil => exact hget
  | @cons tree between final input rest text hfirst hrest ih =>
      refine hfirst.of_get? (ih hget fun later hlater => ?_) (hother input List.mem_cons_self)
      rw [hfirst.carries.locate]
      exact hother later (List.mem_cons_of_mem input hlater)

/-- A run that succeeds prints the line of each output in order, and an output to which no later input was compiled then
holds the translation of its input, as that was when its turn came. It was so before the run too, unless an earlier input
was compiled to its place. -/
theorem compileAll_holds_translations
    (hrun : ((disk.compileAll directory inputs).run tree).1.outcome = .ok outputs) :
    outputs = inputs.map (·.generated directory) ∧
      (∀ filter, (runCompile disk filter directory inputs).run tree =
        (⟨Outcome.success, inputs.flatMap fun input => createdLine (input.generated directory),
          filter.lines ((disk.compileAll directory inputs).run tree).1.events⟩,
          ((disk.compileAll directory inputs).run tree).2)) ∧
      ∀ before input after, inputs = before ++ input :: after →
        (∀ later ∈ after, tree.locate (later.generated directory) ≠ tree.locate (input.generated directory)) →
        ∃ content source text, ((disk.compileAll directory before).run tree).2.read input = .ok content ∧
          textOfBytes? content = some source ∧ toTypeScript source = .ok text ∧
          ((disk.compileAll directory inputs).run tree).2.read (input.generated directory) =
            .ok (bytesOfText text) ∧
          ((∀ earlier ∈ before, tree.locate (earlier.generated directory) ≠ tree.locate input) →
            tree.get? (tree.locate input) = some (.file content)) := by
  obtain ⟨houtputs, -⟩ := run_compileAll_ok hrun
  refine ⟨houtputs, fun filter => ?_, ?_⟩
  · rw [run_runCompile_ok disk directory filter hrun, houtputs, List.flatMap_map]
  rintro before input after rfl hlater
  rw [run_compileAll_append] at hrun ⊢
  dsimp only at hrun ⊢
  cases hbefore : ((disk.compileAll directory before).run tree).1.outcome with
  | error e =>
      rw [hbefore] at hrun
      cases hrun
  | ok earlier =>
      have hearlier := (run_compileAll_ok hbefore).2
      rw [hbefore] at hrun
      dsimp only at hrun ⊢
      generalize ((disk.compileAll directory before).run tree).2 = between at hearlier hrun ⊢
      cases hrest : ((disk.compileAll directory (input :: after)).run between).1.outcome with
      | error e =>
          rw [hrest] at hrun
          cases hrun
      | ok rest =>
          have hlocate := hearlier.carries.locate
          obtain _ | ⟨hinput, hafter⟩ := (run_compileAll_ok hrest).2
          have hplace := hinput.carries.locate
          obtain _ | _ | _ | _ | _ | ⟨-, hread, hsource, htext, -, hwrite⟩ := hinput
          have hwritten := (write_eq_ok hwrite).2.2.2
          refine ⟨_, _, _, hread, hsource, htext, ?_, fun hbefore => ?_⟩
          · refine hafter.read_eq hwritten fun later hmem => ?_
            rw [hplace, hplace, hlocate, hlocate]
            exact hlater later hmem
          · have hget := (read_eq_ok_iff.1 hread).2
            rw [hlocate] at hget
            exact hearlier.of_get? hget hbefore

/-- A tree with two sources of one name, one in the working directory and one below it. -/
def twoSources : FileTree :=
  ⟨["home".toList],
    [(["home".toList, "a.ks".toList], .file (bytesOfText "상수".toList)),
      (["home".toList, "d".toList, "a.ks".toList], .file (bytesOfText "변수".toList)),
      (["home".toList, "d".toList], .directory), (["home".toList], .directory)]⟩

theorem compileAll_holds_translation_beside_source :
    let inputs := [Path.ofString "a.ks", Path.ofString "d/a.ks"]
    let done := (disk.compileAll none inputs).run twoSources
    done.1.outcome = .ok [Path.ofString "a.ts", Path.ofString "d/a.ts"] ∧
      (runCompile disk [] none inputs).run twoSources =
        (⟨Outcome.success, "✅ a.ts 생성됨\n✅ d/a.ts 생성됨\n".toList, LogFilter.lines [] done.1.events⟩, done.2) ∧
      ∃ content source text, twoSources.read (.ofString "a.ks") = .ok content ∧ textOfBytes? content = some source ∧
        toTypeScript source = .ok text ∧ done.2.read (.ofString "a.ts") = .ok (bytesOfText text) ∧
        ((∀ earlier ∈ ([] : List Path), twoSources.locate (earlier.generated none) ≠ twoSources.locate (.ofString "a.ks")) →
          twoSources.get? (twoSources.locate (.ofString "a.ks")) = some (.file content)) := by
  intro inputs done
  have hrun : done.1.outcome = .ok [Path.ofString "a.ts", Path.ofString "d/a.ts"] := by decide +kernel
  obtain ⟨-, hprinted, hholds⟩ := compileAll_holds_translations hrun
  have hprinted := hprinted []
  have hlines : inputs.flatMap (fun input => createdLine (input.generated none)) =
      "✅ a.ts 생성됨\n✅ d/a.ts 생성됨\n".toList := by decide +kernel
  rw [hlines] at hprinted
  exact ⟨hrun, hprinted, hholds [] (.ofString "a.ks") [.ofString "d/a.ks"] rfl (by decide +kernel)⟩

/-- In a chosen directory the outputs of two sources of one name are one file, and the second translation replaces the
first. -/
theorem second_output_replaces_first :
    let first := Path.ofString "a.ks"
    let chosen := some (Path.ofString "out")
    let done := (disk.compileAll chosen [first, .ofString "d/a.ks"]).run twoSources
    done.1.outcome = .ok [.ofString "out/a.ts", .ofString "out/a.ts"] ∧
      twoSources.read first = .ok (bytesOfText "상수".toList) ∧ toTypeScript "상수".toList = .ok "const".toList ∧
      done.2.read (first.generated chosen) ≠ .ok (bytesOfText "const".toList) := by
  decide +kernel

end HangulScript

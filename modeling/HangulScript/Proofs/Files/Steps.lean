import HangulScript.Proofs.Path.Location

/-!
# What file operations do

An operation that succeeds on a path works at the place that the path names. Reading finds a file there, writing puts one
there, and creating a directory puts one where nothing was.
-/

namespace HangulScript

open Text

namespace FileTree

variable {tree other : FileTree} {path : Path} {place next : Location} {piece name : List Char}

@[simp] theorem workingDirectory_put (tree : FileTree) (place : Location) (entry : Entry) :
    (tree.put place entry).workingDirectory = tree.workingDirectory := rfl

theorem locate_eq (h : other.workingDirectory = tree.workingDirectory) (path : Path) :
    other.locate path = tree.locate path := by
  rw [locate, locate, h]

/-! ## Following a path -/

theorem enter_eq_ok_iff : tree.enter place piece = .ok next ↔
    tree.get? place = some .directory ∧ next = Path.follow place piece ∧
      (piece ≠ [] → piece ≠ ['.'] → piece ≠ ['.', '.'] →
        byteLength piece ≤ maxNameLength ∧ tree.get? (place ++ [piece]) ≠ none) := by
  unfold enter Path.follow
  by_cases hdir : tree.get? place = some .directory
  · rw [if_neg (not_not.2 hdir)]
    by_cases hempty : piece = [] ∨ piece = ['.']
    · have hno : piece ≠ [] → piece ≠ ['.'] → False := fun hne hdot => hempty.elim hne hdot
      rw [if_pos hempty, if_pos hempty, Except.ok.injEq]
      exact ⟨fun h => ⟨hdir, h.symm, fun hne hdot => (hno hne hdot).elim⟩, fun h => h.2.1.symm⟩
    rw [if_neg hempty, if_neg hempty]
    by_cases hup : piece = ['.', '.']
    · rw [if_pos hup, if_pos hup, Except.ok.injEq]
      exact ⟨fun h => ⟨hdir, h.symm, fun _ _ hdots => absurd hup hdots⟩, fun h => h.2.1.symm⟩
    rw [if_neg hup, if_neg hup]
    obtain ⟨hne, hdot⟩ := not_or.1 hempty
    by_cases hlong : maxNameLength < byteLength piece
    · rw [if_pos hlong]
      exact ⟨nofun, fun h => absurd (h.2.2 hne hdot hup).1 (Nat.not_le.2 hlong)⟩
    rw [if_neg hlong]
    by_cases hmissing : tree.get? (place ++ [piece]) = none
    · rw [if_pos hmissing]
      exact ⟨nofun, fun h => absurd hmissing (h.2.2 hne hdot hup).2⟩
    · rw [if_neg hmissing, Except.ok.injEq]
      exact ⟨fun h => ⟨hdir, h.symm, fun _ _ _ => ⟨Nat.not_lt.1 hlong, hmissing⟩⟩, fun h => h.2.1.symm⟩
  · rw [if_pos hdir]
    exact ⟨nofun, fun h => absurd h.1 hdir⟩

theorem foldlM_enter_cons_eq_ok {pieces : List (List Char)} :
    (piece :: pieces).foldlM tree.enter place = .ok next ↔
      ∃ between, tree.enter place piece = .ok between ∧ pieces.foldlM tree.enter between = .ok next := by
  rw [List.foldlM_cons]
  cases tree.enter place piece with
  | error e => simp [bind, Except.bind]
  | ok between => simp [bind, Except.bind]

theorem foldlM_enter_append_eq_ok {a b : List (List Char)} :
    (a ++ b).foldlM tree.enter place = .ok next ↔
      ∃ between, a.foldlM tree.enter place = .ok between ∧ b.foldlM tree.enter between = .ok next := by
  rw [List.foldlM_append]
  cases a.foldlM tree.enter place with
  | error e => simp [bind, Except.bind]
  | ok between => simp [bind, Except.bind]

theorem follow_of_foldlM_enter {pieces : List (List Char)} (h : pieces.foldlM tree.enter place = .ok next) :
    next = pieces.foldl Path.follow place := by
  induction pieces generalizing place with
  | nil => exact (Except.ok.inj h).symm
  | cons piece pieces ih =>
      obtain ⟨between, hpiece, hpieces⟩ := foldlM_enter_cons_eq_ok.1 h
      obtain ⟨-, rfl, -⟩ := enter_eq_ok_iff.1 hpiece
      exact ih hpieces

theorem origin_eq_ok (h : tree.origin path = .ok place) :
    place = if path.isAbsolute then [] else tree.workingDirectory := by
  unfold origin at h
  split_ifs at h ⊢ <;> exact (Except.ok.inj h).symm

theorem resolve_eq_ok_iff : tree.resolve path = .ok place ↔
    ∃ origin, tree.origin path = .ok origin ∧ (Path.pieces path.text).foldlM tree.enter origin = .ok place := by
  unfold resolve
  cases tree.origin path with
  | error e => simp [bind, Except.bind]
  | ok origin => simp [bind, Except.bind]

/-- A path leads, if anywhere, to the place that it names. -/
theorem locate_of_resolve (h : tree.resolve path = .ok place) : place = tree.locate path := by
  obtain ⟨origin, horigin, hpieces⟩ := resolve_eq_ok_iff.1 h
  obtain rfl := origin_eq_ok horigin
  exact follow_of_foldlM_enter hpieces

/-! ## Trees that carry the paths of another -/

/-- What is there in the tree is there in the other, and a directory stays one. -/
structure Carries (tree other : FileTree) : Prop where
  workingDirectory : other.workingDirectory = tree.workingDirectory
  directory : ∀ place, tree.get? place = some .directory → other.get? place = some .directory
  present : ∀ place, tree.get? place ≠ none → other.get? place ≠ none

theorem Carries.refl (tree : FileTree) : Carries tree tree :=
  ⟨rfl, fun _ h => h, fun _ h => h⟩

theorem Carries.trans {third : FileTree} (h : Carries tree other) (h' : Carries other third) : Carries tree third :=
  ⟨h'.workingDirectory.trans h.workingDirectory, fun place hdir => h'.directory place (h.directory place hdir),
    fun place hpresent => h'.present place (h.present place hpresent)⟩

theorem Carries.foldlM_enter {pieces : List (List Char)} (h : Carries tree other)
    (hok : pieces.foldlM tree.enter place = .ok next) : pieces.foldlM other.enter place = .ok next := by
  induction pieces generalizing place with
  | nil => exact hok
  | cons piece pieces ih =>
      obtain ⟨between, hpiece, hpieces⟩ := foldlM_enter_cons_eq_ok.1 hok
      obtain ⟨hdir, hfollow, hname⟩ := enter_eq_ok_iff.1 hpiece
      refine foldlM_enter_cons_eq_ok.2 ⟨between, enter_eq_ok_iff.2 ⟨h.directory place hdir, hfollow, ?_⟩, ih hpieces⟩
      intro hne hdot hdots
      obtain ⟨hshort, hpresent⟩ := hname hne hdot hdots
      exact ⟨hshort, h.present _ hpresent⟩

theorem Carries.origin (h : Carries tree other) (path : Path) : other.origin path = tree.origin path := by
  simp only [FileTree.origin, h.workingDirectory]

theorem Carries.locate (h : Carries tree other) (path : Path) : other.locate path = tree.locate path :=
  locate_eq h.workingDirectory path

theorem Carries.resolve (h : Carries tree other) (hok : tree.resolve path = .ok place) :
    other.resolve path = .ok place := by
  obtain ⟨origin, horigin, hpieces⟩ := resolve_eq_ok_iff.1 hok
  exact resolve_eq_ok_iff.2 ⟨origin, (h.origin path).trans horigin, h.foldlM_enter hpieces⟩

/-- An entry may be put where no directory is. -/
theorem carries_put {entry : Entry} (hplace : place ≠ []) (hdir : tree.get? place ≠ some .directory) :
    Carries tree (tree.put place entry) where
  workingDirectory := rfl
  directory other hother := by
    have hne : other ≠ place := fun heq => hdir (heq ▸ hother)
    rw [get?_put hplace, if_neg hne, hother]
  present other hother := by
    rw [get?_put hplace]
    split_ifs
    · exact Option.some_ne_none entry
    · exact hother

/-! ## Reading -/

theorem read_eq_ok_iff {content : ByteArray} : tree.read path = .ok content ↔
    tree.resolve path = .ok (tree.locate path) ∧ tree.get? (tree.locate path) = some (.file content) := by
  unfold read
  cases hresolve : tree.resolve path with
  | error e => simp [bind, Except.bind]
  | ok place =>
      obtain rfl := locate_of_resolve hresolve
      cases hget : tree.get? (tree.locate path) with
      | none => simp [bind, Except.bind, hget, throw, throwThe, MonadExceptOf.throw]
      | some entry =>
          cases entry <;> simp [bind, Except.bind, hget, throw, throwThe, MonadExceptOf.throw, pure, Except.pure]

theorem Carries.read {content : ByteArray} (h : Carries tree other) (hread : tree.read path = .ok content)
    (hsame : other.get? (tree.locate path) = tree.get? (tree.locate path)) : other.read path = .ok content := by
  obtain ⟨hresolve, hget⟩ := read_eq_ok_iff.1 hread
  rw [read_eq_ok_iff, h.locate]
  exact ⟨h.resolve hresolve, hsame.trans hget⟩

/-! ## The last name of a path -/

/-- The pieces of a path up to the last that is not empty. -/
theorem exists_named (pieces : List (List Char)) : ∃ named empty,
    (pieces.reverse.dropWhile (· = [])).reverse = named ∧ pieces = named ++ empty ∧ (∀ piece ∈ empty, piece = []) ∧
      ∀ name, named.getLast? = some name → name ≠ [] := by
  refine ⟨_, (pieces.reverse.takeWhile (· = [])).reverse, rfl, ?_, fun piece hpiece => ?_, fun name hlast => ?_⟩
  · rw [← List.reverse_append, List.takeWhile_append_dropWhile, List.reverse_reverse]
  · simpa using List.mem_takeWhile_imp (List.mem_reverse.1 hpiece)
  · have hhead := List.head?_dropWhile_not (· = []) pieces.reverse
    rw [List.getLast?_reverse] at hlast
    rw [hlast] at hhead
    simpa using hhead

/-- An operation works below a directory, at the place that the path names. -/
structure Targets (tree : FileTree) (path : Path) (t : Target) (name : List Char) : Prop where
  place : tree.locate path = t.directory ++ [name]
  directory : tree.get? t.directory = some .directory
  nameable : name ≠ [] ∧ name ≠ ['.'] ∧ name ≠ ['.', '.']
  followed : t.slash = false → ∃ origin lead, tree.origin path = .ok origin ∧
    Path.pieces path.text = lead ++ [name] ∧ lead.foldlM tree.enter origin = .ok t.directory

theorem target_eq_ok {t : Target} (h : tree.target path = .ok t) (hname : t.name = some name) :
    Targets tree path t name := by
  obtain ⟨named, empty, hdrop, hpieces, hempty, hlast⟩ := exists_named (Path.pieces path.text)
  simp only [target, hdrop] at h
  cases horigin : tree.origin path with
  | error e => simp [horigin, bind, Except.bind] at h
  | ok origin =>
      cases hdirectory : named.dropLast.foldlM tree.enter origin with
      | error e => simp [horigin, hdirectory, bind, Except.bind] at h
      | ok directory =>
          by_cases hdir : tree.get? directory = some .directory
          · cases hend : named.getLast? with
            | none =>
                simp only [horigin, hdirectory, hdir, hend, bind, Except.bind, pure, Except.pure, ne_eq, not_true_eq_false,
                  if_false, Except.ok.injEq] at h
                subst h
                cases hname
            | some last =>
                simp only [horigin, hdirectory, hdir, hend, bind, Except.bind, pure, Except.pure, ne_eq, not_true_eq_false,
                  if_false, Except.ok.injEq] at h
                subst h
                simp only [Option.ite_none_left_eq_some, Option.some.injEq, not_or] at hname
                obtain ⟨⟨hdot, hdots⟩, rfl⟩ := hname
                have hne := hlast last hend
                have hnamed : named = named.dropLast ++ [last] := (List.dropLast_append_getLast? last hend).symm
                refine ⟨?_, hdir, ⟨hne, hdot, hdots⟩, fun hslash => ⟨origin, named.dropLast, horigin, ?_, hdirectory⟩⟩
                · rw [locate, Path.location, hpieces, List.foldl_append,
                    Path.foldl_follow_of_empty fun piece hpiece => Or.inl (hempty piece hpiece), hnamed,
                    List.foldl_append, ← origin_eq_ok horigin, ← follow_of_foldlM_enter hdirectory]
                  exact Path.follow_name directory hne hdot hdots
                · have hlength : empty.length = 0 := by
                    rw [decide_eq_false_iff_not, hpieces, List.length_append] at hslash
                    omega
                  rw [← hnamed, hpieces, List.eq_nil_of_length_eq_zero hlength, List.append_nil]
          · simp [horigin, hdirectory, hdir, bind, Except.bind, throw, throwThe, MonadExceptOf.throw] at h

theorem Targets.ne_nil {t : Target} (h : Targets tree path t name) : tree.locate path ≠ [] := by
  rw [h.place]
  exact List.append_ne_nil_of_right_ne_nil _ (List.cons_ne_nil _ _)

/-! ## Writing -/

/-- A file is written to the place that its path names, where no directory is, and can be read there. -/
theorem write_eq_ok {content : ByteArray} {written : FileTree} (h : tree.write path content = .ok written) :
    written = tree.put (tree.locate path) (.file content) ∧ tree.locate path ≠ [] ∧
      tree.get? (tree.locate path) ≠ some .directory ∧ written.read path = .ok content := by
  unfold write at h
  cases htarget : tree.target path with
  | error e => simp [htarget, bind, Except.bind] at h
  | ok t =>
      simp only [htarget, bind, Except.bind] at h
      split at h
      · next name hname hslash =>
        have htargets := target_eq_ok htarget hname
        have hplace := htargets.place
        have hnil := htargets.ne_nil
        by_cases hlong : maxNameLength < byteLength name
        · simp [hlong, throw, throwThe, MonadExceptOf.throw] at h
        by_cases hdir : tree.get? (t.directory ++ [name]) = some .directory
        · simp [hlong, hdir, throw, throwThe, MonadExceptOf.throw] at h
        simp only [hlong, hdir, if_false, pure, Except.pure, Except.ok.injEq] at h
        rw [← hplace] at h hdir
        subst h
        refine ⟨rfl, hnil, hdir, ?_⟩
        have hcarries : Carries tree (tree.put (tree.locate path) (.file content)) := carries_put hnil hdir
        have hget : (tree.put (tree.locate path) (.file content)).get? (tree.locate path) = some (.file content) := by
          rw [get?_put hnil, if_pos rfl]
        obtain ⟨origin, lead, horigin, hpieces, hlead⟩ := htargets.followed hslash
        rw [read_eq_ok_iff, hcarries.locate, resolve_eq_ok_iff]
        refine ⟨⟨origin, (hcarries.origin path).trans horigin, ?_⟩, hget⟩
        rw [hpieces]
        refine foldlM_enter_append_eq_ok.2 ⟨t.directory, hcarries.foldlM_enter hlead, ?_⟩
        refine foldlM_enter_cons_eq_ok.2 ⟨tree.locate path, enter_eq_ok_iff.2 ?_, rfl⟩
        obtain ⟨hne, hdot, hdots⟩ := htargets.nameable
        refine ⟨hcarries.directory _ htargets.directory, ?_, fun _ _ _ => ⟨Nat.not_lt.1 hlong, ?_⟩⟩
        · rw [hplace, Path.follow_name _ hne hdot hdots]
        · rw [← hplace, hget]
          exact Option.some_ne_none _
      · simp [throw, throwThe, MonadExceptOf.throw] at h

theorem write_get? {content : ByteArray} {written : FileTree} (h : tree.write path content = .ok written)
    (place : Location) :
    written.get? place = if place = tree.locate path then some (.file content) else tree.get? place := by
  obtain ⟨rfl, hnil, -⟩ := write_eq_ok h
  exact get?_put hnil

theorem write_carries {content : ByteArray} {written : FileTree} (h : tree.write path content = .ok written) :
    Carries tree written := by
  obtain ⟨rfl, hnil, hdir, -⟩ := write_eq_ok h
  exact carries_put hnil hdir

/-! ## Creating directories -/

/-- The entries of the tree stay, and directories come to places of a kind. -/
structure Grows (added : Location → Prop) (tree grown : FileTree) : Prop where
  workingDirectory : grown.workingDirectory = tree.workingDirectory
  entries : ∀ place, grown.get? place = tree.get? place ∨
    tree.get? place = none ∧ grown.get? place = some .directory ∧ added place

variable {added : Location → Prop} {grown : FileTree}

theorem Grows.refl (added : Location → Prop) (tree : FileTree) : Grows added tree tree :=
  ⟨rfl, fun _ => Or.inl rfl⟩

theorem Grows.trans {third : FileTree} (h : Grows added tree grown) (h' : Grows added grown third) :
    Grows added tree third := by
  refine ⟨h'.workingDirectory.trans h.workingDirectory, fun place => ?_⟩
  rcases h.entries place with hsame | ⟨hnone, hdir, hadded⟩
  · rcases h'.entries place with hsame' | ⟨hnone', hdir', hadded'⟩
    · exact Or.inl (hsame'.trans hsame)
    · exact Or.inr ⟨hsame ▸ hnone', hdir', hadded'⟩
  · rcases h'.entries place with hsame' | ⟨hnone', -⟩
    · exact Or.inr ⟨hnone, hsame'.trans hdir, hadded⟩
    · rw [hdir] at hnone'
      cases hnone'

theorem Grows.mono {more : Location → Prop} (h : Grows added tree grown) (hmore : ∀ place, added place → more place) :
    Grows more tree grown :=
  ⟨h.workingDirectory, fun place => (h.entries place).imp_right fun hnew => ⟨hnew.1, hnew.2.1, hmore place hnew.2.2⟩⟩

theorem Grows.get?_eq {entry : Entry} (h : Grows added tree grown) {place : Location}
    (hget : tree.get? place = some entry) : grown.get? place = some entry := by
  rcases h.entries place with hsame | ⟨hnone, -⟩
  · rw [hsame, hget]
  · rw [hget] at hnone
    cases hnone

theorem Grows.carries (h : Grows added tree grown) : Carries tree grown where
  workingDirectory := h.workingDirectory
  directory _ hdir := h.get?_eq hdir
  present place hpresent := by
    obtain ⟨entry, hentry⟩ := Option.ne_none_iff_exists'.1 hpresent
    rw [h.get?_eq hentry]
    exact Option.some_ne_none entry

theorem Grows.read {content : ByteArray} (h : Grows added tree grown) (hread : tree.read path = .ok content) :
    grown.read path = .ok content := by
  refine h.carries.read hread ?_
  have hget := (read_eq_ok_iff.1 hread).2
  rw [hget, h.get?_eq hget]

theorem createDirectory_grows {created : FileTree} (h : tree.createDirectory path = .ok created) :
    Grows (· = tree.locate path) tree created := by
  unfold createDirectory at h
  cases htarget : tree.target path with
  | error e => simp [htarget, bind, Except.bind] at h
  | ok t =>
      simp only [htarget, bind, Except.bind] at h
      split at h
      · simp [throw, throwThe, MonadExceptOf.throw] at h
      · next name hname =>
        have htargets := target_eq_ok htarget hname
        by_cases hlong : maxNameLength < byteLength name
        · simp [hlong, throw, throwThe, MonadExceptOf.throw] at h
        by_cases hthere : tree.get? (t.directory ++ [name]) = none
        · simp only [hlong, hthere, ne_eq, not_true_eq_false, if_false, pure, Except.pure, Except.ok.injEq] at h
          rw [← htargets.place] at h hthere
          subst h
          refine ⟨rfl, fun place => ?_⟩
          rw [get?_put htargets.ne_nil]
          split_ifs with hplace
          · exact Or.inr ⟨hplace ▸ hthere, rfl, hplace⟩
          · exact Or.inl rfl
        · simp [hlong, hthere, throw, throwThe, MonadExceptOf.throw] at h

theorem createInside_grows (tree : FileTree) (paths : List Path) :
    Grows (· ∈ paths.map tree.locate) tree (tree.createInside paths).2 := by
  induction paths generalizing tree with
  | nil => exact Grows.refl _ tree
  | cons path around ih =>
      have hhead : ∀ place, place = tree.locate path → place ∈ (path :: around).map tree.locate := fun place hplace => by
        simp [hplace]
      have htail : ∀ place, place ∈ around.map tree.locate → place ∈ (path :: around).map tree.locate := fun place hplace =>
        List.mem_cons_of_mem _ hplace
      rw [createInside]
      by_cases hnone : path.text = []
      · rw [if_pos hnone]
        exact Grows.refl _ tree
      · rw [if_neg hnone]
        split
        · next created hcreated => exact (createDirectory_grows hcreated).mono hhead
        · have haround := (ih tree).mono htail
          split
          · next e grown hgrown => rw [hgrown] at haround; exact haround
          · next grown hgrown =>
            rw [hgrown] at haround
            split
            · next created hcreated =>
              have hcreated := createDirectory_grows hcreated
              rw [haround.carries.locate] at hcreated
              exact haround.trans (hcreated.mono hhead)
            · exact haround
        · exact Grows.refl _ tree

/-- Creating directories adds some of the directory and those around it, and changes nothing else. -/
theorem createDirectories_grows (tree : FileTree) (path : Path) :
    Grows (· ∈ path.ancestors.map tree.locate) tree (tree.createDirectories path).2 :=
  createInside_grows tree path.ancestors

end FileTree

end HangulScript

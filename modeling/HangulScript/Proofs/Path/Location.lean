import HangulScript.Files.Tree
import HangulScript.Path.Generated
import Mathlib.Data.List.Basic
import Mathlib.Data.List.TakeWhile

/-!
# The place that a path names

Without links the text of a path tells its place: a name goes down and `..` goes up. The place of a generated file next to
its source is the place of the source only where the two paths have the same components.
-/

namespace HangulScript

open Text

namespace Path

/-- One piece of a path, followed without a look at any file. -/
def follow (place : Location) (piece : List Char) : Location :=
  if piece = [] ∨ piece = ['.'] then place
  else if piece = ['.', '.'] then place.dropLast
  else place ++ [piece]

/-- The place that the path names from a directory. -/
def location (base : Location) (path : Path) : Location :=
  (pieces path.text).foldl follow (if path.isAbsolute then [] else base)

variable {base : Location} {path : Path} {text a b name : List Char}

/-! ## Pieces -/

theorem pieces_ne_nil (text : List Char) : pieces text ≠ [] := by
  fun_cases pieces text <;> simp [*]

theorem pieces_append_slash (a b : List Char) : pieces (a ++ '/' :: b) = pieces a ++ pieces b := by
  induction a with
  | nil => simp [pieces]
  | cons c a ih =>
      by_cases hslash : c = '/'
      · simp [pieces, hslash, ih]
      · obtain ⟨piece, others, hpieces⟩ := List.exists_cons_of_ne_nil (pieces_ne_nil a)
        simp [pieces, hslash, ih, hpieces]

theorem pieces_of_notMem (h : '/' ∉ name) : pieces name = [name] := by
  induction name with
  | nil => rfl
  | cons c name ih =>
      rw [List.mem_cons, not_or] at h
      simp [pieces, Ne.symm h.1, ih h.2]

/-! ## Names at the end -/

/-- The text ends with a slash, unless it is empty. -/
def EndsOpen (text : List Char) : Prop :=
  text = [] ∨ ∃ lead, text = lead ++ ['/']

theorem endsOpen_beforeLastName (text : List Char) : EndsOpen (beforeLastName text) := by
  unfold beforeLastName
  rcases hrest : text.reverse.dropWhile (· ≠ '/') with _ | ⟨c, rest⟩
  · exact Or.inl rfl
  · have hc := List.head?_dropWhile_not (· ≠ '/') text.reverse
    rw [hrest] at hc
    obtain rfl : c = '/' := by simpa using hc
    exact Or.inr ⟨rest.reverse, by simp⟩

theorem notMem_lastName (text : List Char) : '/' ∉ lastName text := by
  intro h
  have hname := List.mem_takeWhile_imp (List.mem_reverse.1 h)
  simp at hname

theorem beforeLastName_append_lastName (text : List Char) : beforeLastName text ++ lastName text = text := by
  rw [beforeLastName, lastName, ← List.reverse_append, List.takeWhile_append_dropWhile, List.reverse_reverse]

theorem pieces_append_name (h : EndsOpen a) (hname : '/' ∉ name) :
    pieces (a ++ name) = (pieces a).dropLast ++ [name] := by
  rcases h with rfl | ⟨lead, rfl⟩
  · simp [pieces, pieces_of_notMem hname]
  · rw [List.append_assoc, List.singleton_append, pieces_append_slash, pieces_append_slash, pieces_of_notMem hname]
    simp [pieces]

theorem isAbsolute_append_name (hname : '/' ∉ name) (hne : name ≠ []) :
    (Path.mk (a ++ name)).isAbsolute = (Path.mk a).isAbsolute := by
  cases a with
  | nil =>
      obtain ⟨c, rest, rfl⟩ := List.exists_cons_of_ne_nil hne
      rw [List.mem_cons, not_or] at hname
      simp [isAbsolute, Ne.symm hname.1]
  | cons c a => rfl

/-- A name after a text that ends open is one step from a place that the text alone tells. -/
theorem exists_location_append (base : Location) (h : EndsOpen a) :
    ∃ place, ∀ name, '/' ∉ name → name ≠ [] → location base ⟨a ++ name⟩ = follow place name := by
  refine ⟨(pieces a).dropLast.foldl follow (if (Path.mk a).isAbsolute then [] else base), fun name hname hne => ?_⟩
  rw [location, pieces_append_name h hname, isAbsolute_append_name hname hne, List.foldl_append]
  rfl

/-! ## Slashes at the end -/

/-- What is trimmed off a text are pieces that stand for nothing. -/
theorem pieces_trimmed (text : List Char) :
    ∃ empty, pieces text = pieces (trimmed text) ++ empty ∧ ∀ piece ∈ empty, piece = [] ∨ piece = ['.'] := by
  unfold trimmed
  suffices h : ∀ back, ∃ empty, pieces back.reverse = pieces (dropTrailing back).reverse ++ empty ∧
      ∀ piece ∈ empty, piece = [] ∨ piece = ['.'] by
    simpa using h text.reverse
  intro back
  fun_induction dropTrailing back with
  | case1 rest ih =>
      obtain ⟨empty, hpieces, hempty⟩ := ih
      refine ⟨empty ++ [[]], ?_, ?_⟩
      · rw [List.reverse_cons, pieces_append_slash, hpieces, List.append_assoc]
        rfl
      · intro piece hpiece
        rcases List.mem_append.1 hpiece with hpiece | hpiece
        · exact hempty piece hpiece
        · exact Or.inl (List.mem_singleton.1 hpiece)
  | case2 rest ih =>
      obtain ⟨empty, hpieces, hempty⟩ := ih
      refine ⟨empty ++ [['.']], ?_, ?_⟩
      · rw [List.reverse_cons, List.reverse_cons, List.append_assoc, List.singleton_append, pieces_append_slash, hpieces,
          List.append_assoc]
        rfl
      · intro piece hpiece
        rcases List.mem_append.1 hpiece with hpiece | hpiece
        · exact hempty piece hpiece
        · exact Or.inr (List.mem_singleton.1 hpiece)
  | case3 rest => exact ⟨[], by simp, by simp⟩

theorem trimmed_prefix (text : List Char) : trimmed text <+: text := by
  unfold trimmed
  suffices h : ∀ back, dropTrailing back <:+ back by
    simpa using List.reverse_prefix.2 (h text.reverse)
  intro back
  fun_induction dropTrailing back with
  | case1 rest ih => exact ih.trans (List.suffix_cons '/' rest)
  | case2 rest ih => exact ih.trans ((List.suffix_cons '/' rest).trans (List.suffix_cons '.' _))
  | case3 rest => exact List.suffix_refl _

theorem isAbsolute_trimmed (h : trimmed text ≠ []) : (Path.mk (trimmed text)).isAbsolute = (Path.mk text).isAbsolute := by
  obtain ⟨rest, hrest⟩ := trimmed_prefix text
  have hhead : (trimmed text ++ rest).head? = (trimmed text).head? := List.head?_append_of_ne_nil _ h
  rw [hrest] at hhead
  rw [isAbsolute, isAbsolute, hhead]

theorem foldl_follow_of_empty {place : Location} {empty : List (List Char)}
    (h : ∀ piece ∈ empty, piece = [] ∨ piece = ['.']) : empty.foldl follow place = place := by
  induction empty with
  | nil => rfl
  | cons piece empty ih =>
      rw [List.foldl_cons, follow, if_pos (h piece List.mem_cons_self)]
      exact ih fun other hother => h other (List.mem_cons_of_mem piece hother)

theorem location_trimmed (h : trimmed text ≠ []) : location base ⟨trimmed text⟩ = location base ⟨text⟩ := by
  obtain ⟨empty, hpieces, hempty⟩ := pieces_trimmed text
  rw [location, location, hpieces, List.foldl_append, foldl_follow_of_empty hempty, isAbsolute_trimmed h]

theorem components_trimmed (h : trimmed text ≠ []) : (Path.mk (trimmed text)).components = (Path.mk text).components := by
  obtain ⟨empty, hpieces, hempty⟩ := pieces_trimmed text
  have hnone : empty.filterMap component? = [] := by
    rw [List.filterMap_eq_nil_iff]
    intro piece hpiece
    rw [component?, if_pos (hempty piece hpiece)]
  simp only [components, hpieces, isAbsolute_trimmed h, List.head?_append_of_ne_nil _ (pieces_ne_nil _),
    List.filterMap_append, hnone, List.append_nil]

/-! ## The name of a file -/

/-- A path with a file name is, up to slashes at its end, a text that ends open and the name after it. -/
theorem of_fileName? (h : path.fileName? = some name) :
    trimmed path.text = beforeLastName (trimmed path.text) ++ name ∧ '/' ∉ name ∧ name ≠ [] ∧ name ≠ ['.'] ∧
      name ≠ ['.', '.'] := by
  simp only [fileName?] at h
  split_ifs at h with hnone
  rw [not_or, not_or] at hnone
  obtain rfl := Option.some.inj h
  exact ⟨(beforeLastName_append_lastName _).symm, notMem_lastName _, hnone⟩

theorem follow_name (place : Location) (hne : name ≠ []) (hdot : name ≠ ['.']) (hdots : name ≠ ['.', '.']) :
    follow place name = place ++ [name] := by
  simp [follow, hne, hdot, hdots]

theorem splitName_begins (name : List Char) : (splitName name).1 <+: name := by
  have h : ((name.reverse.dropWhile (· ≠ '.')).tail).reverse <+: name := by
    simpa using List.reverse_prefix.2 ((List.tail_suffix _).trans (List.dropWhile_suffix (l := name.reverse) (· ≠ '.')))
  unfold splitName
  split
  · exact List.prefix_refl name
  · exact h

/-- A source and the file generated next to it name one place only if the paths are made of the same components. -/
theorem sameAs_of_location_withExtension {extension : List Char} (hextension : '/' ∉ extension)
    (hlength : 1 < extension.length)
    (h : (path.withExtension extension).location base = path.location base) :
    path.sameAs (path.withExtension extension) = true := by
  unfold withExtension at h ⊢
  cases hname : path.fileName? with
  | none => simp [sameAs]
  | some name =>
      obtain ⟨hbase, hslash, hne, hdot, hdots⟩ := of_fileName? hname
      have htrimmed : trimmed path.text ≠ [] := by
        rw [hbase]
        exact List.append_ne_nil_of_right_ne_nil _ hne
      obtain ⟨place, hplace⟩ := exists_location_append base (endsOpen_beforeLastName (trimmed path.text))
      have hpath : path.location base = place ++ [name] := by
        rw [← follow_name place hne hdot hdots, ← hplace name hslash hne, ← hbase]
        exact (location_trimmed htrimmed).symm
      rw [hpath] at h
      simp only [hname] at h ⊢
      by_cases hshort : (splitName name).1 = ['.'] ∧ trimmed path.text = path.text
      · -- the place of `..` is not below the directory
        rw [if_pos hshort, hplace ['.', '.'] (by decide) (by decide)] at h
        have hup : follow place ['.', '.'] = place.dropLast := rfl
        have hlength := congrArg List.length (hup.symm.trans h)
        rw [List.length_dropLast, List.length_append, List.length_singleton] at hlength
        omega
      · have hstem : '/' ∉ (splitName name).1 := fun hmem => hslash ((splitName_begins name).mem hmem)
        have hgenerated : '/' ∉ (splitName name).1 ++ '.' :: extension := by simp [hstem, hextension]
        have hlong : ∀ short : List Char, short.length ≤ 2 → (splitName name).1 ++ '.' :: extension ≠ short := by
          rintro _ hle rfl
          rw [List.length_append, List.length_cons] at hle
          omega
        rw [if_neg hshort, List.append_assoc] at h ⊢
        rw [hplace _ hgenerated (hlong [] (by decide)),
          follow_name _ (hlong _ (by decide)) (hlong _ (by decide)) (hlong _ (by decide))] at h
        have hsame : (splitName name).1 ++ '.' :: extension = name := by simpa using h
        rw [hsame, ← hbase, sameAs, decide_eq_true_eq]
        exact (components_trimmed htrimmed).symm

end Path

/-- The place that a path names in a tree. -/
def FileTree.locate (tree : FileTree) (path : Path) : Location :=
  path.location tree.workingDirectory

/-- A file generated next to its source lies at the place of the source only if their paths are the same. -/
theorem Path.sameAs_of_locate_generated {tree : FileTree} {input : Path}
    (h : tree.locate (input.generated none) = tree.locate input) : input.sameAs (input.generated none) = true :=
  sameAs_of_location_withExtension (by decide) (by decide) h

end HangulScript

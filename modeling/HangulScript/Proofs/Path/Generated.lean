import Mathlib.Tactic.SplitIfs
import HangulScript.Proofs.Path.Location

/-!
# Names of generated files

A file can be generated next to its source or into a chosen directory. Both ways give the stem of the source and the same
extension, and they agree where the directory is the one of the source.
-/

namespace HangulScript.Path

variable {path input directory : Path} {text a name stem extension : List Char}

/-! ## A name after a text that ends open -/

/-- A text that can stand for a file in a path. -/
structure IsName (name : List Char) : Prop where
  oneName : '/' ∉ name
  ne_nil : name ≠ []
  ne_current : name ≠ ['.']
  ne_parent : name ≠ ['.', '.']

theorem component?_of_isName (h : IsName name) : component? name = some (.name name) := by
  rw [component?, if_neg (not_or.2 ⟨h.ne_nil, h.ne_current⟩), if_neg h.ne_parent]

/-- A name is one more component. -/
theorem components_append_name (ha : EndsOpen a) (hname : IsName name) :
    (Path.mk (a ++ name)).components = (Path.mk a).components ++ [.name name] := by
  have hlast : [name].filterMap component? = [.name name] := by
    rw [List.filterMap_cons_some (component?_of_isName hname), List.filterMap_nil]
  simp only [components, pieces_append_name ha hname.oneName, isAbsolute_append_name hname.oneName hname.ne_nil,
    List.filterMap_append, hlast]
  rcases ha with rfl | ⟨lead, rfl⟩
  · simp [pieces, component?, isAbsolute, hname.ne_current]
  · have hpieces : pieces (lead ++ ['/']) = pieces lead ++ [[]] := pieces_append_slash lead []
    rw [hpieces, List.dropLast_concat, List.head?_append_of_ne_nil _ (pieces_ne_nil lead),
      List.head?_append_of_ne_nil _ (pieces_ne_nil lead), List.filterMap_append]
    simp [component?]

theorem beforeLastName_append (ha : EndsOpen a) (hname : '/' ∉ name) : beforeLastName (a ++ name) = a := by
  have hskip : ∀ c ∈ name.reverse, decide (c ≠ '/') = true := by
    intro c hc
    refine decide_eq_true ?_
    rintro rfl
    exact hname (List.mem_reverse.1 hc)
  rw [beforeLastName, List.reverse_append, List.dropWhile_append_of_pos hskip]
  rcases ha with rfl | ⟨lead, rfl⟩ <;> simp

theorem lastName_append (ha : EndsOpen a) (hname : '/' ∉ name) : lastName (a ++ name) = name := by
  have hcut := beforeLastName_append_lastName (a ++ name)
  rw [beforeLastName_append ha hname] at hcut
  exact List.append_cancel_left hcut

/-- Nothing is trimmed off a name that does not end with a dot. -/
theorem trimmed_concat {c : Char} (hslash : c ≠ '/') (hdot : c ≠ '.') (text : List Char) :
    trimmed (text ++ [c]) = text ++ [c] := by
  rw [trimmed, List.reverse_append, List.reverse_singleton, List.singleton_append, dropTrailing.eq_3]
  · simp
  · exact fun rest hrest => hslash (List.cons.inj hrest).1
  · exact fun rest hrest => hdot (List.cons.inj hrest).1

/-! ## The directory of a file -/

/-- Only slashes and names `.` after a slash are trimmed off a text as a whole. -/
theorem isAbsolute_of_trimmed_eq_nil (h : trimmed text = []) (hne : text ≠ []) : (Path.mk text).isAbsolute = true := by
  obtain ⟨empty, hpieces, -⟩ := pieces_trimmed text
  obtain ⟨c, rest, rfl⟩ := List.exists_cons_of_ne_nil hne
  by_cases hc : c = '/'
  · rw [hc]
    rfl
  · -- the first piece would not be empty
    have hfirst := congrArg List.head? hpieces
    rw [h] at hfirst
    obtain ⟨piece, others, hrest⟩ := List.exists_cons_of_ne_nil (pieces_ne_nil rest)
    simp [pieces, hc, hrest] at hfirst

/-- An absolute text of which nothing is left is the root. -/
theorem components_of_trimmed_eq_nil (h : trimmed text = []) (habsolute : (Path.mk text).isAbsolute = true) :
    (Path.mk text).components = [.root] := by
  obtain ⟨empty, hpieces, hempty⟩ := pieces_trimmed text
  have hnone : (pieces text).filterMap component? = [] := by
    rw [hpieces, h, List.filterMap_eq_nil_iff]
    intro piece hpiece
    rcases List.mem_append.1 hpiece with hpiece | hpiece
    · rw [component?, if_pos (Or.inl (List.mem_singleton.1 hpiece))]
    · rw [component?, if_pos (hempty piece hpiece)]
  rw [components, hnone, if_pos habsolute, List.append_nil]

/-- The parent of a path is the directory before its last name. -/
theorem parent?_of_trimmed (htrimmed : trimmed path.text = a ++ name) (ha : EndsOpen a) (hname : IsName name) :
    ∃ parent, path.parent? = some parent ∧ parent.components = (Path.mk a).components := by
  have hne : a ++ name ≠ [] := List.append_ne_nil_of_right_ne_nil a hname.ne_nil
  have habsolute : path.isAbsolute = (Path.mk a).isAbsolute := by
    calc path.isAbsolute
        = (Path.mk (trimmed path.text)).isAbsolute := (isAbsolute_trimmed (htrimmed ▸ hne)).symm
      _ = (Path.mk (a ++ name)).isAbsolute := by rw [htrimmed]
      _ = (Path.mk a).isAbsolute := isAbsolute_append_name hname.oneName hname.ne_nil
  simp only [parent?, htrimmed, if_neg hne, beforeLastName_append ha hname.oneName, habsolute]
  by_cases hnil : trimmed a = []
  · by_cases hroot : (Path.mk a).isAbsolute = true
    · rw [if_pos ⟨hnil, hroot⟩]
      exact ⟨_, rfl, (components_of_trimmed_eq_nil hnil hroot).symm⟩
    · obtain rfl : a = [] := Decidable.byContradiction fun hempty => hroot (isAbsolute_of_trimmed_eq_nil hnil hempty)
      exact ⟨_, rfl, rfl⟩
  · rw [if_neg fun hroot => hnil hroot.1]
    exact ⟨_, rfl, components_trimmed hnil⟩

/-- A path as the place to put a name after. -/
def opened (path : Path) : List Char :=
  if path.text = [] ∨ path.text.getLast? = some '/' then path.text else path.text ++ ['/']

theorem endsOpen_opened (path : Path) : EndsOpen path.opened := by
  unfold opened
  split_ifs with h
  · rcases h with hnil | hlast
    · exact Or.inl hnil
    · exact Or.inr ⟨_, (List.dropLast_append_getLast? _ hlast).symm⟩
  · exact Or.inr ⟨path.text, rfl⟩

theorem components_opened (path : Path) : (Path.mk path.opened).components = path.components := by
  unfold opened
  split_ifs with h
  · rfl
  · obtain ⟨hne, -⟩ := not_or.1 h
    have hpieces : pieces (path.text ++ ['/']) = pieces path.text ++ [[]] := pieces_append_slash path.text []
    have habsolute : (Path.mk (path.text ++ ['/'])).isAbsolute = path.isAbsolute := by
      rw [isAbsolute, isAbsolute, List.head?_append_of_ne_nil _ hne]
    simp [components, hpieces, habsolute, List.head?_append_of_ne_nil _ (pieces_ne_nil _), component?]

theorem join_eq (directory : Path) (hname : IsName name) : directory.join name = ⟨directory.opened ++ name⟩ := by
  have hslash : ¬ name.head? = some '/' := fun hhead => hname.oneName (List.mem_of_mem_head? hhead)
  rw [join, if_neg hslash, opened]
  split_ifs
  · rfl
  · rw [List.append_assoc]
    rfl

/-! ## Stem and extension -/

/-- What follows the last dot of the file's name. -/
def extension? (path : Path) : Option (List Char) :=
  path.fileName?.bind fun name => (splitName name).2

theorem splitName_ne_nil (h : name ≠ []) : (splitName name).1 ≠ [] := by
  unfold splitName
  split
  · exact h
  · next hstem =>
    intro hnil
    exact hstem (List.reverse_eq_nil_iff.1 hnil)

theorem splitName_append (hstem : stem ≠ []) (hextension : '.' ∉ extension) :
    splitName (stem ++ '.' :: extension) = (stem, some extension) := by
  have hskip : ∀ c ∈ extension.reverse, decide (c ≠ '.') = true := by
    intro c hc
    refine decide_eq_true ?_
    rintro rfl
    exact hextension (List.mem_reverse.1 hc)
  have hback : (stem ++ '.' :: extension).reverse = extension.reverse ++ '.' :: stem.reverse := by simp
  obtain ⟨first, c, rfl⟩ := List.eq_nil_or_concat stem |>.resolve_left hstem
  rw [splitName, hback, List.dropWhile_append_of_pos hskip, List.takeWhile_append_of_pos hskip]
  simp

/-! ## Generated paths -/

/-- A stem: the name of a generated file up to the extension. -/
structure IsStem (stem : List Char) : Prop where
  oneName : '/' ∉ stem
  ne_nil : stem ≠ []

/-- The name of the file that is generated for a stem. -/
def generatedName (stem : List Char) : List Char :=
  stem ++ '.' :: typeScriptExtension

theorem isStem_of_stem? (h : input.stem? = some stem) : IsStem stem := by
  obtain ⟨name, hname, rfl⟩ := Option.map_eq_some_iff.1 h
  obtain ⟨-, hslash, hne, -, -⟩ := of_fileName? hname
  exact ⟨fun hmem => hslash ((splitName_begins name).mem hmem), splitName_ne_nil hne⟩

theorem isName_generatedName (h : IsStem stem) : IsName (generatedName stem) := by
  have hlong : ∀ short : List Char, short.length ≤ 2 → generatedName stem ≠ short := by
    rintro _ hle rfl
    simp [generatedName, typeScriptExtension] at hle
  constructor
  case oneName => simp [generatedName, typeScriptExtension, h.oneName]
  case ne_nil => exact hlong _ (by decide)
  case ne_current => exact hlong _ (by decide)
  case ne_parent => exact hlong _ (by decide)

theorem trimmed_generated (a stem : List Char) : trimmed (a ++ generatedName stem) = a ++ generatedName stem := by
  have hcut : a ++ generatedName stem = (a ++ stem ++ ['.', 't']) ++ ['s'] := by
    simp [generatedName, typeScriptExtension]
  rw [hcut, trimmed_concat (by decide) (by decide)]

theorem fileName?_generated (ha : EndsOpen a) (h : IsStem stem) :
    (Path.mk (a ++ generatedName stem)).fileName? = some (generatedName stem) := by
  have hname := isName_generatedName h
  simp only [fileName?, trimmed_generated, lastName_append ha hname.oneName]
  rw [if_neg (not_or.2 ⟨hname.ne_nil, not_or.2 ⟨hname.ne_current, hname.ne_parent⟩⟩)]

theorem splitName_generatedName (h : IsStem stem) : splitName (generatedName stem) = (stem, some typeScriptExtension) :=
  splitName_append h.ne_nil (by decide)

/-- With the same extension again a generated path stays as it is. -/
theorem withExtension_generated (ha : EndsOpen a) (h : IsStem stem) (hdot : stem ≠ ['.']) :
    (Path.mk (a ++ generatedName stem)).withExtension typeScriptExtension = ⟨a ++ generatedName stem⟩ := by
  simp only [withExtension, fileName?_generated ha h, splitName_generatedName h, trimmed_generated,
    beforeLastName_append ha (isName_generatedName h).oneName]
  rw [if_neg fun hshort => hdot hshort.1, List.append_assoc]
  rfl

/-- Either way a generated path is a directory and then the name made of the source's stem. -/
theorem generated_eq (hstem : input.stem? = some stem) (hdot : stem ≠ ['.']) (directory : Option Path) :
    input.generated directory =
      ⟨(directory.elim (beforeLastName (trimmed input.text)) opened) ++ generatedName stem⟩ := by
  cases directory with
  | none =>
      obtain ⟨name, hname, rfl⟩ := Option.map_eq_some_iff.1 hstem
      simp only [generated, withExtension, hname]
      rw [if_neg fun hshort => hdot hshort.1, List.append_assoc]
      rfl
  | some directory =>
      simp only [generated, hstem, Option.getD_some]
      exact join_eq directory (isName_generatedName (isStem_of_stem? hstem))

section

variable (hstem : input.stem? = some stem) (hdot : stem ≠ ['.'])

include hstem hdot

/-- Next to its source a file is generated into the directory of the source. -/
theorem components_generated_none :
    ∃ parent, input.parent? = some parent ∧ (input.generated none).components = (input.generated (some parent)).components := by
  have hname := isName_generatedName (isStem_of_stem? hstem)
  have hgenerated := generated_eq hstem hdot
  obtain ⟨name, hfile, -⟩ := Option.map_eq_some_iff.1 hstem
  obtain ⟨hbase, hslash, hne, hcurrent, hparent⟩ := of_fileName? hfile
  have hopen := endsOpen_beforeLastName (trimmed input.text)
  obtain ⟨parent, hparent, hcomponents⟩ := parent?_of_trimmed hbase hopen ⟨hslash, hne, hcurrent, hparent⟩
  refine ⟨parent, hparent, ?_⟩
  calc (input.generated none).components
      = (Path.mk (beforeLastName (trimmed input.text))).components ++ [.name (generatedName stem)] := by
        rw [hgenerated none]
        exact components_append_name hopen hname
    _ = (Path.mk parent.opened).components ++ [.name (generatedName stem)] := by
        rw [components_opened, hcomponents]
    _ = (input.generated (some parent)).components := by
        rw [hgenerated (some parent)]
        exact (components_append_name (endsOpen_opened parent) hname).symm

theorem parent?_generated (directory : Path) :
    ∃ parent, (input.generated (some directory)).parent? = some parent ∧ parent.components = directory.components := by
  rw [generated_eq hstem hdot (some directory)]
  have htrimmed : trimmed (Path.mk (directory.opened ++ generatedName stem)).text =
      directory.opened ++ generatedName stem := trimmed_generated _ stem
  obtain ⟨parent, hparent, hcomponents⟩ :=
    parent?_of_trimmed htrimmed (endsOpen_opened directory) (isName_generatedName (isStem_of_stem? hstem))
  exact ⟨parent, hparent, hcomponents.trans (components_opened directory)⟩

theorem fileName?_generated_some (directory : Path) :
    (input.generated (some directory)).fileName? = some (generatedName stem) := by
  rw [generated_eq hstem hdot (some directory)]
  exact fileName?_generated (endsOpen_opened directory) (isStem_of_stem? hstem)

theorem generated_generated (chosen : Option Path) : (input.generated chosen).generated none = input.generated chosen := by
  rw [generated_eq hstem hdot chosen]
  refine withExtension_generated ?_ (isStem_of_stem? hstem) hdot
  cases chosen with
  | none => exact endsOpen_beforeLastName _
  | some directory => exact endsOpen_opened directory

end

/-- The two ways to name a generated file agree on the directory of the source. In a chosen directory the file keeps the
source's stem, and a generated path generates itself. -/
theorem generated_forms_agree {input : Path} {stem : List Char} (hstem : input.stem? = some stem) (hdot : stem ≠ ['.']) :
    (∃ parent, input.parent? = some parent ∧ (input.generated none).sameAs (input.generated (some parent)) = true) ∧
    (∀ directory,
      (∃ parent, (input.generated (some directory)).parent? = some parent ∧ parent.sameAs directory = true) ∧
      (input.generated (some directory)).stem? = some stem ∧
      (input.generated (some directory)).extension? = some typeScriptExtension) ∧
    ∀ chosen, (input.generated chosen).generated none = input.generated chosen := by
  refine ⟨?_, fun directory => ⟨?_, ?_, ?_⟩, generated_generated hstem hdot⟩
  · obtain ⟨parent, hparent, hcomponents⟩ := components_generated_none hstem hdot
    exact ⟨parent, hparent, decide_eq_true hcomponents⟩
  · obtain ⟨parent, hparent, hcomponents⟩ := parent?_generated hstem hdot directory
    exact ⟨parent, hparent, decide_eq_true hcomponents⟩
  · rw [stem?, fileName?_generated_some hstem hdot, Option.map_some, splitName_generatedName (isStem_of_stem? hstem)]
  · rw [extension?, fileName?_generated_some hstem hdot, Option.bind_some, splitName_generatedName (isStem_of_stem? hstem)]

theorem generated_forms_agree_nestedSource :
    let input := Path.ofString "./src//a.b.ks/"
    let chosen := Path.ofString "out/."
    input.stem? = some "a.b".toList ∧ "a.b".toList ≠ ['.'] ∧
      (∃ parent, input.parent? = some parent ∧ (input.generated none).sameAs (input.generated (some parent)) = true) ∧
      ((∃ parent, (input.generated (some chosen)).parent? = some parent ∧ parent.sameAs chosen = true) ∧
        (input.generated (some chosen)).stem? = some "a.b".toList ∧
        (input.generated (some chosen)).extension? = some typeScriptExtension) ∧
      (input.generated (some chosen)).generated none = input.generated (some chosen) := by
  intro input chosen
  have hstem : input.stem? = some "a.b".toList := by decide
  have hdot : "a.b".toList ≠ ['.'] := by decide
  obtain ⟨hbeside, hchosen, hagain⟩ := generated_forms_agree hstem hdot
  exact ⟨hstem, hdot, hbeside, hchosen chosen, hagain (some chosen)⟩

example : ((Path.ofString "./src//a.b.ks/").generated none).text = "./src//a.b.ts".toList ∧
    ((Path.ofString "./src//a.b.ks/").generated (some (Path.ofString "out/."))).text = "out/./a.b.ts".toList := by
  decide

end HangulScript.Path

import HangulScript.Proofs.Keyword.Names
import HangulScript.Proofs.Scan.Splice

/-!
# The scan as a look-up

With a table of names the output of the scan is the source with the identifiers of its code looked up, each of them as a
whole. No identifier stands half in code.
-/

namespace HangulScript

open Text

/-- The characters that were read, each with the state in which it was read. -/
def Trace.characters {σ : Type} (trace : Trace σ) : List (Char × σ) :=
  trace.visits.flatMap fun v => v.edit.consumed.map (·, v.state)

theorem Trace.map_fst_characters {σ : Type} (trace : Trace σ) : trace.characters.map Prod.fst = trace.source := by
  simp [characters, source, List.map_flatMap, Function.comp_def]

namespace Pass

variable {σ : Type} (pass : Pass σ) {offset : Nat} {state : σ} {place : Cursor}

theorem characters_runFrom (hrest : place.rest ≠ []) : (pass.runFrom offset state place).characters =
    (pass.step state place).1.consumed.map (·, state) ++
      (pass.runFrom (offset + byteLength (pass.step state place).1.consumed) (pass.step state place).2
        (place.advance (pass.step state place).1.consumed.length)).characters := by
  rw [pass.runFrom_of_ne_nil hrest]
  rfl

theorem head_characters (p : Char → Bool) :
    (pass.runFrom offset state place).characters.head?.any (p ·.1) = place.rest.head?.any p := by
  have hread := (pass.runFrom offset state place).map_fst_characters
  rw [pass.source_runFrom] at hread
  rw [← hread, List.head?_map, Option.any_map]

/-- The first character is read in the state of the place. -/
theorem state_of_head_characters {m : Char × σ} (hm : m ∈ (pass.runFrom offset state place).characters.head?) :
    m.2 = state := by
  by_cases hrest : place.rest = []
  · rw [pass.runFrom_nil hrest] at hm
    cases hm
  · have hne := pass.consumed_ne_nil state place hrest
    obtain ⟨c, text, hread⟩ := List.exists_cons_of_ne_nil hne
    rw [pass.characters_runFrom hrest, hread] at hm
    cases hm
    rfl

end Pass

namespace Keywords

variable {table : List Rule} {source word rest : List Char} {regions : OpenRegions} {place : Cursor} {offset : Nat}

/-! ## Identifier characters in a scan -/

theorem notMem_of_isNameChar {c : Char} (h : isNameChar c = true) :
    c ∉ ['"', '\'', '`', '/', '*', '\\', '{', '}', '\n'] := by
  have hall : ['"', '\'', '`', '/', '*', '\\', '{', '}', '\n'].all (!isNameChar ·) = true := by decide +kernel
  intro hmem
  have := List.all_eq_true.1 hall c hmem
  simp [h] at this

theorem after_of_isNameChar {c : Char} (h : isNameChar c = true) : regions.after c = regions := by
  have hne := notMem_of_isNameChar h
  simp only [List.mem_cons, not_or] at hne
  unfold OpenRegions.after OpenRegions.opening
  split <;> simp [hne]

/-- In code no pair has an identifier character; elsewhere a pair that ends with one is an escape. -/
theorem afterPair?_isNameChar {c d : Char} {next : OpenRegions} (hpair : regions.afterPair? c d = some next) :
    (isNameChar d = true → next = regions) ∧
      (regions.innermost.holdsCode = true → isNameChar c = false ∧ isNameChar d = false) := by
  constructor
  · intro hname
    have hne := notMem_of_isNameChar hname
    simp only [List.mem_cons, not_or] at hne
    unfold OpenRegions.afterPair? at hpair
    split at hpair <;> simp_all
  · intro hcode
    have hslash : isNameChar '/' = false := Bool.eq_false_iff.2 fun h => notMem_of_isNameChar h (by decide)
    rw [afterPair?_of_holdsCode hcode] at hpair
    split_ifs at hpair with hline hblock
    · rw [hline.1, hline.2]
      exact ⟨hslash, hslash⟩
    · rw [hblock.1, hblock.2]
      exact ⟨hslash, Bool.eq_false_iff.2 fun h => notMem_of_isNameChar h (by decide)⟩

/-- A step of the empty table that ends with an identifier character stays in its regions, and in code it does not come
upon one after another character. -/
theorem step_nil_names (regions : OpenRegions) (hrest : place.rest ≠ []) :
    ∃ piece, piece ≠ [] ∧ (step [] regions place).1 = .copy piece ∧
      (∀ c ∈ piece.getLast?, isNameChar c = true → (step [] regions place).2 = regions) ∧
      (regions.innermost.holdsCode = true → place.rest.head?.any isNameChar = false →
        ∀ c ∈ piece, isNameChar c = false) := by
  rcases step_nil_cases regions hrest with ⟨c, rest, hplace, -, heq⟩ | ⟨c, d, rest, next, hplace, hpair, heq⟩
  · rw [heq, hplace]
    refine ⟨[c], List.cons_ne_nil _ _, rfl, ?_, ?_⟩
    · rintro _ ⟨⟩ hname
      exact after_of_isNameChar hname
    · simp
  · obtain ⟨hstay, hcode⟩ := afterPair?_isNameChar hpair
    rw [heq]
    refine ⟨[c, d], List.cons_ne_nil _ _, rfl, ?_, ?_⟩
    · rintro _ ⟨⟩ hname
      exact hstay hname
    · simpa using fun h _ => hcode h

/-- Away from the identifiers in code a step comes upon identifier characters only out of code, and it comes to code
only where no identifier touches the place from the left. -/
theorem step_nil_outside (hrest : place.rest ≠ [])
    (hout : regions.innermost.holdsCode = true → place.rest.head?.any isNameChar = false) :
    ∃ piece, (step [] regions place).1 = .copy piece ∧
      (∀ c ∈ piece.getLast?, isNameChar c = true → (step [] regions place).2 = regions) ∧
      (∀ c ∈ piece, isNameChar c = true → regions.innermost.holdsCode = false) ∧
      ((step [] regions place).2.innermost.holdsCode = true → (place.advance piece.length).freeBefore = true) := by
  obtain ⟨piece, hne, hpiece, hstay, hnames⟩ := step_nil_names regions hrest
  have hkept : ∀ c ∈ piece, isNameChar c = true → regions.innermost.holdsCode = false := by
    intro c hc hname
    refine Bool.eq_false_iff.2 fun hcode => ?_
    rw [hnames hcode (hout hcode) c hc] at hname
    cases hname
  refine ⟨piece, hpiece, hstay, hkept, fun hcode => ?_⟩
  obtain ⟨rest, hread⟩ := Pass.consumed_prefix (keywordPass []) regions place
  rw [keywordPass_step, hpiece, Edit.consumed_copy] at hread
  obtain ⟨c, hc⟩ := Option.ne_none_iff_exists'.1 (mt List.getLast?_eq_none_iff.1 hne)
  -- after an identifier character the scan would still be out of code
  have hnone : isNameChar c = false := by
    refine Bool.eq_false_iff.2 fun hname => ?_
    rw [hstay c hc hname, hkept c (List.mem_of_getLast? hc) hname] at hcode
    cases hcode
  rw [Cursor.freeBefore, Cursor.advance_append hread.symm, hc, Option.some_or, Option.any_some, hnone]
  rfl

theorem triesRules_of_isNameChar {c : Char} (hcode : regions.innermost.holdsCode = true)
    (hplace : place.rest = c :: rest) (hname : isNameChar c = true) : TriesRules regions place := by
  have hne := notMem_of_isNameChar hname
  simp only [List.mem_cons, not_or] at hne
  refine ⟨hcode, ?_, ?_⟩
  · rw [hplace, opened?_cons]
    simp [hne]
  · simp [hplace, hne]

theorem step_nil_of_isNameChar {c : Char} (hcode : regions.innermost.holdsCode = true) (hplace : place.rest = c :: rest)
    (hname : isNameChar c = true) : step [] regions place = (.copy [c], regions) := by
  have htries := triesRules_of_isNameChar hcode hplace hname
  rw [step_of_triesRules htries, codeStep, htries.2.1]
  simp [Rule.firstMatch?, hplace]

theorem step_of_not_isNameChar (h : ∀ rule ∈ table, rule.IsName)
    (hout : regions.innermost.holdsCode = true → place.rest.head?.any isNameChar = false) :
    step table regions place = step [] regions place := by
  refine step_eq_nil fun htries => List.find?_eq_none.2 fun rule hrule happlies => ?_
  obtain ⟨after, hafter⟩ := Rule.spelling_prefix happlies
  obtain ⟨c, spelling, hspelling⟩ := List.exists_cons_of_ne_nil rule.spelling_ne_nil
  have hhead := hout htries.1
  rw [← hafter, hspelling, List.cons_append, List.head?_cons, Option.any_some,
    (h rule hrule).2 c (by rw [hspelling]; exact List.mem_cons_self)] at hhead
  cases hhead

/-! ## Runs -/

theorem advance_cons {c : Char} (hplace : place.rest = c :: word ++ rest) :
    (place.advance [c].length).advance word.length = place.advance (c :: word).length := by
  rw [Cursor.advance_advance place [c] word (by simpa using hplace), ← List.length_append, List.singleton_append]

theorem characters_nil_word (hcode : regions.innermost.holdsCode = true) (hname : ∀ c ∈ word, isNameChar c = true)
    (hplace : place.rest = word ++ rest) :
    ((keywordPass []).runFrom offset regions place).characters =
      word.map (·, regions) ++
        ((keywordPass []).runFrom (offset + byteLength word) regions (place.advance word.length)).characters := by
  induction word generalizing offset place with
  | nil => simp
  | cons c word ih =>
      have hstep := step_nil_of_isNameChar hcode hplace (hname c List.mem_cons_self)
      rw [Pass.characters_runFrom _ (by simp [hplace]), keywordPass_step, hstep, Edit.consumed_copy,
        ih (fun d hd => hname d (List.mem_cons_of_mem c hd)) (by simp [hplace]), advance_cons hplace, Nat.add_assoc]
      simp

theorem output_word (h : ∀ rule ∈ table, rule.IsName) (hcode : regions.innermost.holdsCode = true)
    (hname : ∀ c ∈ word, isNameChar c = true) (hplace : place.rest = word ++ rest)
    (hstop : rest.head?.any isNameChar = false) :
    ((keywordPass table).runFrom offset regions place).output =
      (if place.freeBefore then lookUpWord table word else word) ++
        ((keywordPass table).runFrom (offset + byteLength word) regions (place.advance word.length)).output := by
  induction word generalizing offset place with
  | nil => simp [lookUpWord_of_notName h (Or.inl rfl)]
  | cons c word ih =>
      have htries := triesRules_of_isNameChar hcode hplace (hname c List.mem_cons_self)
      have hfirst := Rule.firstMatch?_of_word h hplace hname hstop
      rw [Pass.output_runFrom _ (by simp [hplace]), keywordPass_step]
      cases hrule : Rule.firstMatch? table place with
      | some rule =>
          -- the rule is found for the whole identifier
          rw [hrule] at hfirst
          split_ifs at hfirst ⊢ with hfree
          have hspelling : rule.spelling = c :: word := by simpa using List.find?_some hfirst.symm
          rw [step_of_firstMatch htries hrule, ← hspelling, lookUpWord, hspelling, ← hfirst]
          rfl
      | none =>
          have hinside : (place.advance [c].length).freeBefore = false := by
            simp [Cursor.freeBefore, Cursor.advance, hplace, hname c List.mem_cons_self]
          have hword : (if place.freeBefore then lookUpWord table (c :: word) else c :: word) = c :: word := by
            rw [hrule] at hfirst
            split_ifs at hfirst ⊢
            · rw [lookUpWord, ← hfirst]
              rfl
            · rfl
          have htail : ∀ d ∈ word, isNameChar d = true := fun d hd => hname d (List.mem_cons_of_mem c hd)
          rw [step_eq_nil fun _ => hrule, step_nil_of_isNameChar hcode hplace (hname c List.mem_cons_self),
            Edit.consumed_copy, Edit.written_copy, ih htail (by simp [hplace]), advance_cons hplace, Nat.add_assoc,
            hword, hinside]
          simp

/-- A scan with names reads every character in the regions in which the empty table reads it. -/
theorem characters_eq (h : ∀ rule ∈ table, rule.IsName) (offset : Nat) (regions : OpenRegions) (place : Cursor) :
    ((keywordPass table).runFrom offset regions place).characters =
      ((keywordPass []).runFrom offset regions place).characters := by
  induction offset, regions, place using Pass.runFrom.induct (keywordPass table) with
  | case1 offset regions place hrest => rw [(keywordPass table).runFrom_nil hrest, (keywordPass []).runFrom_nil hrest]
  | case2 offset regions place hrest made htail =>
      rw [Pass.characters_runFrom _ hrest, htail]
      rcases step_cases table regions place with ⟨rule, htries, hrule, hstep⟩ | ⟨-, hstep⟩
      · have hmade : made = (⟨[], rule.spelling, rule.replacement⟩, regions) := hstep
        obtain ⟨rest, hplace⟩ := Rule.spelling_prefix (Rule.applies_of_firstMatch? hrule)
        rw [keywordPass_step, hmade, hstep,
          characters_nil_word htries.1 (h rule (Rule.mem_of_firstMatch? hrule)).2 hplace.symm]
        rfl
      · have hmade : made = step [] regions place := hstep
        rw [keywordPass_step, hmade, hstep, Pass.characters_runFrom _ hrest, keywordPass_step]

/-- Of two identifier characters that touch, both are read in the same regions. -/
theorem characters_stay (offset : Nat) (regions : OpenRegions) (place : Cursor) :
    ((keywordPass []).runFrom offset regions place).characters.IsChain
      fun a b => isNameChar a.1 = true → a.2 = b.2 := by
  induction offset, regions, place using Pass.runFrom.induct (keywordPass []) with
  | case1 offset regions place hrest =>
      rw [(keywordPass []).runFrom_nil hrest]
      exact .nil
  | case2 offset regions place hrest made htail =>
      obtain ⟨piece, -, hpiece, hstay, -⟩ := step_nil_names regions hrest
      rw [Pass.characters_runFrom _ hrest]
      refine List.isChain_append.2 ⟨?_, htail, fun a ha b hb hname => ?_⟩
      · refine List.Pairwise.isChain (List.pairwise_of_forall_mem_list fun a ha b hb _ => ?_)
        obtain ⟨_, -, rfl⟩ := List.mem_map.1 ha
        obtain ⟨_, -, rfl⟩ := List.mem_map.1 hb
        rfl
      · rw [keywordPass_step, hpiece, Edit.consumed_copy, List.getLast?_map] at ha
        obtain ⟨c, hc, rfl⟩ := Option.map_eq_some_iff.1 ha
        exact (hstay c hc hname).symm.trans (Pass.state_of_head_characters _ hb).symm

/-- From the beginning of a token on the scan writes what the tokens are looked up to. -/
theorem output_eq_lookUpAll (h : ∀ rule ∈ table, rule.IsName) (offset : Nat) (regions : OpenRegions) (place : Cursor)
    (hstart : regions.innermost.holdsCode = true → place.rest.head?.any isNameChar = true → place.freeBefore = true) :
    ((keywordPass table).runFrom offset regions place).output =
      lookUpAll table ((keywordPass []).runFrom offset regions place).characters := by
  induction hn : place.rest.length using Nat.strongRecOn generalizing offset regions place with
  | ind n ih =>
      by_cases hrest : place.rest = []
      · rw [(keywordPass table).runFrom_nil hrest, (keywordPass []).runFrom_nil hrest]
        rfl
      by_cases hword : regions.innermost.holdsCode = true ∧ place.rest.head?.any isNameChar = true
      · -- a whole identifier in code
        obtain ⟨hcode, hhead⟩ := hword
        obtain ⟨word, rest, hplace, hname, hstop⟩ := exists_run isNameChar place.rest
        have hne : word ≠ [] := by
          rintro rfl
          rw [hplace, List.nil_append, hstop] at hhead
          cases hhead
        have hafter : (place.advance word.length).rest = rest := by simp [hplace]
        have hlt : (place.advance word.length).rest.length < n := by
          have := List.length_pos_iff.2 hne
          rw [hafter, ← hn, hplace, List.length_append]
          omega
        have htail := ih _ hlt (offset + byteLength word) regions (place.advance word.length)
          (fun _ hnext => by rw [hafter, hstop] at hnext; cases hnext) rfl
        rw [output_word h hcode hname hplace hstop, if_pos (hstart hcode hhead), htail,
          characters_nil_word hcode hname hplace, lookUpAll_word_append h hcode hname]
        rw [Pass.head_characters, hafter, hstop]
      · -- one character or two that are no part of an identifier in code
        have hout : regions.innermost.holdsCode = true → place.rest.head?.any isNameChar = false := fun hcode =>
          Bool.eq_false_iff.2 fun hhead => hword ⟨hcode, hhead⟩
        obtain ⟨piece, hpiece, hstay, hkept, hfree⟩ := step_nil_outside hrest hout
        have hlt := (keywordPass []).length_advance_lt regions hrest
        rw [keywordPass_step, hpiece, Edit.consumed_copy] at hlt
        have htail := ih _ (hn ▸ hlt) (offset + byteLength piece) (step [] regions place).2
          (place.advance piece.length) (fun hcode _ => hfree hcode) rfl
        rw [Pass.output_runFrom _ hrest, Pass.characters_runFrom _ hrest, keywordPass_step, keywordPass_step,
          step_of_not_isNameChar h hout, hpiece, Edit.consumed_copy, Edit.written_copy, htail,
          lookUpAll_copied h hkept]
        intro c hc hname m hm
        rw [Pass.state_of_head_characters _ hm, hstay c hc hname]

/-! ## Whole scans -/

/-- Where rules are names, a change takes the place of one whole token, with what the table has for it. -/
theorem token_of_change (h : ∀ rule ∈ table, rule.IsName) {v : Visit OpenRegions}
    (hv : v ∈ ((keywordPass table).run source).changes) :
    ∃ earlier later,
      tokens ((keywordPass table).run source).characters = earlier ++ v.edit.removed.map (·, v.state) :: later ∧
      v.removedAt = byteLength (earlier.flatten.map Prod.fst) ∧ v.state.innermost.holdsCode = true ∧
      v.edit.inserted = lookUpWord table v.edit.removed := by
  obtain ⟨rule, hremoved, -, htries, hrule, hedit⟩ := change_cases hv
  obtain ⟨done, hreach, -, hoffset, -, more, hvisits⟩ := Pass.of_mem_run (List.mem_filter.1 hv).1
  have hname := (h rule (Rule.mem_of_firstMatch? hrule)).2
  obtain ⟨-, hbefore, hafter⟩ := Cursor.holdsWord_iff.1 (Rule.holdsWord_of_firstMatch? h hrule)
  have hread : v.edit.consumed = rule.spelling := by rw [hedit]; rfl
  have hplace : v.place.rest = rule.spelling ++ readBy more := by
    have htext := (keywordPass table).source_run source
    rw [Trace.source_eq, hvisits, readBy_append, readBy_cons, hread, hreach.text_eq] at htext
    exact (List.append_cancel_left htext).symm
  have hstop : (readBy more).head?.any isNameChar = false := by
    rw [Cursor.advance_append hplace] at hafter
    simpa [Cursor.freeAfter] using hafter
  -- the characters before the change, those that it takes and those after it
  have hlead : (Trace.mk done v.state).characters.map Prod.fst = readBy done := Trace.map_fst_characters _
  have htrail : (Trace.mk more v.state).characters.map Prod.fst = readBy more := Trace.map_fst_characters _
  have hcut : ((keywordPass table).run source).characters = (Trace.mk done v.state).characters ++
      (rule.spelling.map (·, v.state) ++ (Trace.mk more v.state).characters) := by
    simp [Trace.characters, hvisits, hread]
  have hfree : (Trace.mk done v.state).characters.getLast?.any (isNameChar ·.1) = false := by
    rw [Cursor.freeBefore, hreach.before_eq, ← hlead, List.getLast?_map, Option.any_map, Bool.not_eq_true'] at hbefore
    exact hbefore
  have hend : (Trace.mk more v.state).characters.head?.any (isNameChar ·.1) = false := by
    rw [← htrail, List.head?_map, Option.any_map] at hstop
    exact hstop
  refine ⟨tokens (Trace.mk done v.state).characters, tokens (Trace.mk more v.state).characters, ?_, ?_, htries.1, ?_⟩
  · rw [hcut, tokens_append (Or.inl hfree), hedit]
    exact congrArg _ (tokens_word_append (by simpa using rule.spelling_ne_nil) (by simpa using hname) hend)
  · rw [tokens, List.flatten_splitBy, hlead, hremoved, hoffset]
  · rw [Rule.firstMatch?_of_word h hplace hname hstop, if_pos hbefore] at hrule
    rw [hedit, lookUpWord, hrule]
    rfl

/-- What the scan with a table of names does to a source, said of the tokens of the source. -/
structure LooksUp (table : List Rule) (source : List Char) (trace regions : Trace OpenRegions) : Prop where
  /-- Both scans read the characters of the source, each in the same regions. -/
  reads : regions.characters.map Prod.fst = source
  agrees : trace.characters = regions.characters
  /-- The tokens are the source cut into runs of identifier characters and single other ones. -/
  cuts : (tokens regions.characters).flatten = regions.characters
  kinds : ∀ token ∈ tokens regions.characters, (∃ m, token = [m] ∧ isNameChar m.1 = false) ∨
    (token ≠ [] ∧ ∀ m ∈ token, isNameChar m.1 = true)
  /-- No two runs touch. -/
  maximal : (tokens regions.characters).IsChain fun a b =>
    (∃ m ∈ a, isNameChar m.1 = false) ∨ ∃ m ∈ b, isNameChar m.1 = false
  /-- A token lies in the same regions from its beginning to its end. -/
  within : ∀ token ∈ tokens regions.characters, ∀ m ∈ token, ∀ n ∈ token, m.2 = n.2
  output : trace.output = (tokens regions.characters).flatMap (lookUp table)
  /-- A change takes the place of one whole token in code. -/
  whole : ∀ v ∈ trace.changes, ∃ earlier later,
    tokens regions.characters = earlier ++ v.edit.removed.map (·, v.state) :: later ∧
    v.removedAt = byteLength (earlier.flatten.map Prod.fst) ∧ v.state.innermost.holdsCode = true ∧
    v.edit.inserted = lookUpWord table v.edit.removed

/-- The scan of a text with few open braces looks up the identifiers of its code, each as a whole and no part of one. -/
theorem scan_looks_up (h : ∀ rule ∈ table, rule.IsName) (hbraces : source.count '{' < Region.maxHoleDepth) :
    ∃ trace regions, traceKeywords table source = .ok trace ∧ traceKeywords [] source = .ok regions ∧
      LooksUp table source trace regions := by
  have hagrees : ((keywordPass table).run source).characters = ((keywordPass []).run source).characters :=
    characters_eq h 0 .bottom (Cursor.start source)
  refine ⟨_, _, traceKeywords_ok table hbraces, traceKeywords_ok [] hbraces, ?_⟩
  constructor
  case reads => rw [Trace.map_fst_characters, Pass.source_run]
  case agrees => exact hagrees
  case cuts => exact List.flatten_splitBy ..
  case kinds => exact fun token => tokens_kinds
  case maximal => exact tokens_maximal _
  case within => exact fun token => tokens_within (characters_stay 0 .bottom (Cursor.start source))
  case output => exact output_eq_lookUpAll h 0 .bottom (Cursor.start source) fun _ _ => rfl
  case whole =>
    intro v hv
    rw [← hagrees]
    exact token_of_change h hv

/-- Names with a dollar sign, with one spelling twice and with an empty replacement. -/
def nameTable : List Rule :=
  [.alone "$x" "value", .alone "수" "let", .alone "수" "var", .alone "x" ""]

/-- Spellings alone and inside of identifiers, in a comment, after escapes, in template text and in a hole. -/
def nameText : List Char :=
  "수 $x=수x; x./*수*/수 '\\수' `$수$\x7b$x+$$x\x7d \\x 수`".toList

theorem nameTable_names : ∀ rule ∈ nameTable, rule.IsName := by
  have hall : ∀ rule ∈ nameTable, rule.standsAlone = true ∧ rule.spelling.all
      (fun c => c = '$' ∨ c.isAlpha = true ∨ 0xAC00 ≤ c.toNat ∧ c.toNat ≤ 0xD7A3) = true := by
    decide +kernel
  refine fun rule hrule => ⟨(hall rule hrule).1, fun c hc => ?_⟩
  rcases of_decide_eq_true (List.all_eq_true.1 (hall rule hrule).2 c hc) with rfl | halpha | ⟨hfirst, hlast⟩
  · rw [isNameChar, beq_self_eq_true, Bool.or_true]
  · exact Rule.isNameChar_of_isAlpha halpha
  · exact Rule.isNameChar_of_syllable hfirst hlast

theorem scan_looks_up_names :
    (∀ rule ∈ nameTable, rule.IsName) ∧ nameText.count '{' < Region.maxHoleDepth ∧
      ∃ trace regions, traceKeywords nameTable nameText = .ok trace ∧ traceKeywords [] nameText = .ok regions ∧
        LooksUp nameTable nameText trace regions :=
  ⟨nameTable_names, by decide, scan_looks_up nameTable_names (by decide)⟩

/-- The first rule with a spelling counts, and an identifier that only holds a spelling stays. -/
example : ((keywordPass nameTable).run nameText).output =
    "let value=수x; ./*수*/let '\\수' `$수$\x7bvalue+$$x\x7d \\x 수`".toList := by
  rw [Pass.run_eq_runWithin]
  decide +kernel

end Keywords

end HangulScript

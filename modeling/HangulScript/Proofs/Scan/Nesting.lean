import HangulScript.Proofs.Region.Nesting
import HangulScript.Proofs.Scan.Splice

/-!
# The nesting of the open regions

Every step of a scan, with any table, makes a turn that keeps the regions nested. A hole knows which visit opened it, and
its depth is what it counted itself since then.
-/

namespace HangulScript

open Text Lexical

namespace Keywords

variable {table : List Rule} {source : List Char} {regions next : OpenRegions} {place : Cursor} {region : Region}
  {outer : List Region} {piece : List Char} {c d : Char} {depth : Nat} {done : List (Visit OpenRegions)}

/-! ## One step -/

theorem opened?_of_opens {opening : List Char} (h : Opens opening region) (rest : List Char) :
    (Region.opened? (opening ++ rest)).isSome = true := by
  cases h <;> rfl

theorem not_closing_of_holdsCode (hcode : region.holdsCode = true) : ¬ region.Closing piece := by
  rintro (_ | _ | _ | _ | _) <;> cases hcode

theorem quiet_of_triesRules (htries : TriesRules regions place) (hpiece : piece <+: place.rest) (hne : piece ≠ []) :
    regions.Quiet piece := by
  obtain ⟨hcode, hopened, hbrace⟩ := htries
  obtain ⟨rest, hrest⟩ := hpiece
  have hhead : piece.head? = place.rest.head? := by
    obtain ⟨c, piece, rfl⟩ := List.exists_cons_of_ne_nil hne
    rw [← hrest]
    rfl
  constructor
  case opens =>
    intro _ region hopens
    have hsome := opened?_of_opens hopens rest
    rw [hrest, hopened] at hsome
    cases hsome
  case hole =>
    intro htemplate
    rw [htemplate] at hcode
    cases hcode
  case counts =>
    intro hhole
    rw [hhead, ← not_or]
    exact fun h => hbrace ⟨hhole, h⟩
  case ends => exact not_closing_of_holdsCode hcode

theorem holdsCode_of_holeDepth? (h : regions.holeDepth?.isSome = true) : regions.innermost.holdsCode = true := by
  rcases regions with ⟨_ | ⟨region, outer⟩⟩
  · cases h
  · cases region <;> first | rfl | cases h

theorem turn_opening (hcode : regions.innermost.holdsCode = true)
    (hbrace : regions.holeDepth?.isSome = true → c ≠ '{' ∧ c ≠ '}') : regions.Turn [c] (regions.opening c) := by
  unfold OpenRegions.opening
  split_ifs with hdouble hsingle htemplate
  · exact hdouble ▸ .opens hcode .doubleQuoted
  · exact hsingle ▸ .opens hcode .singleQuoted
  · exact htemplate ▸ .opens hcode .template
  refine .stay ⟨fun _ region hopens => ?_, fun _ => by simp, fun hhole => by simpa using hbrace hhole,
    not_closing_of_holdsCode hcode⟩
  obtain ⟨opening, hopening⟩ : ∃ opening, opening = [c] := ⟨_, rfl⟩
  rw [← hopening] at hopens
  cases hopens <;> cases hopening <;> contradiction

theorem quiet_of_not_closing (hcode : regions.innermost.holdsCode = false)
    (hhole : regions.innermost = .template → piece ≠ ['$', '{']) (hends : ¬ regions.innermost.Closing piece) :
    regions.Quiet piece := by
  refine ⟨fun h => ?_, hhole, fun h => ?_, hends⟩
  · rw [hcode] at h
    cases h
  · rw [holdsCode_of_holeDepth? h] at hcode
    cases hcode

theorem turn_pop (hclosing : ∀ piece, region.Closing piece → piece = [d]) (hends : region.Closing [d])
    (hcode : region.holdsCode = false) :
    OpenRegions.Turn ⟨region :: outer⟩ [c]
      (if c = d then OpenRegions.pop ⟨region :: outer⟩ else ⟨region :: outer⟩) := by
  split_ifs with heq
  · exact heq ▸ .ends hends
  · refine .stay (quiet_of_not_closing hcode (fun _ => by simp) fun h => heq ?_)
    simpa using hclosing _ h

theorem turn_after (hnested : regions.Nested) : regions.Turn [c] (regions.after c) := by
  rcases regions with ⟨_ | ⟨region, outer⟩⟩
  · exact turn_opening rfl nofun
  · cases region with
    | code => exact absurd List.mem_cons_self hnested.code_notMem
    | hole depth =>
        obtain ⟨hdepth, below, rfl⟩ := hnested.hole [] depth outer rfl
        by_cases hopen : c = '{'
        · subst hopen
          exact .opening
        by_cases hclose : c = '}'
        · subst hclose
          match depth, hdepth with
          | 1, _ => exact .closed
          | depth + 2, _ => exact .closing (Nat.le_add_left 1 depth)
        · have hafter : (OpenRegions.mk (.hole depth :: .template :: below)).after c =
              (OpenRegions.mk (.hole depth :: .template :: below)).opening c := by
            simp [OpenRegions.after, OpenRegions.innermost, hopen, hclose]
          exact hafter ▸ turn_opening rfl fun _ => ⟨hopen, hclose⟩
    | singleQuoted => exact turn_pop (by rintro _ ⟨⟩; rfl) .singleQuoted rfl
    | doubleQuoted => exact turn_pop (by rintro _ ⟨⟩; rfl) .doubleQuoted rfl
    | template => exact turn_pop (by rintro _ ⟨⟩; rfl) .template rfl
    | lineComment => exact turn_pop (by rintro _ ⟨⟩; rfl) .lineComment rfl
    | blockComment => exact .stay (quiet_of_not_closing rfl (by rintro ⟨⟩) (by rintro ⟨⟩))

theorem turn_afterPair (hpair : regions.afterPair? c d = some next) : regions.Turn [c, d] next := by
  cases hcode : regions.innermost.holdsCode with
  | true =>
      rw [afterPair?_of_holdsCode hcode] at hpair
      split_ifs at hpair with hline hblock <;> cases hpair
      · obtain ⟨rfl, rfl⟩ := hline
        exact .opens hcode .lineComment
      · obtain ⟨rfl, rfl⟩ := hblock
        exact .opens hcode .blockComment
  | false =>
      rcases regions with ⟨_ | ⟨region, outer⟩⟩
      · cases hcode
      · cases region with
        | code | hole => cases hcode
        | singleQuoted | doubleQuoted =>
            simp only [OpenRegions.afterPair?, OpenRegions.innermost, List.headD_cons] at hpair
            split_ifs at hpair
            cases hpair
            exact .stay (quiet_of_not_closing rfl (by rintro ⟨⟩) (by rintro ⟨⟩))
        | template =>
            simp only [OpenRegions.afterPair?, OpenRegions.innermost, List.headD_cons] at hpair
            split_ifs at hpair with hescape hhole <;> cases hpair
            · subst hescape
              exact .stay (quiet_of_not_closing rfl (fun _ => by simp) (by rintro ⟨⟩))
            · obtain ⟨rfl, rfl⟩ := hhole
              exact .hole
        | lineComment => cases hpair
        | blockComment =>
            simp only [OpenRegions.afterPair?, OpenRegions.innermost, List.headD_cons] at hpair
            split_ifs at hpair with hends
            cases hpair
            obtain ⟨rfl, rfl⟩ := hends
            exact .ends .blockComment

/-- A step makes a turn with what it reads. -/
theorem step_turn (hnested : regions.Nested) (hrest : place.rest ≠ []) :
    regions.Turn (step table regions place).1.consumed (step table regions place).2 := by
  rcases step_cases table regions place with ⟨rule, htries, hrule, hstep⟩ | ⟨-, hstep⟩
  · have hbegins := Rule.spelling_prefix (by simpa using List.find?_some hrule : rule.applies place = true)
    rw [hstep]
    exact .stay (quiet_of_triesRules htries hbegins rule.spelling_ne_nil)
  · rw [hstep]
    rcases step_nil_cases regions hrest with ⟨c, rest, -, -, heq⟩ | ⟨c, d, rest, next, -, hpair, heq⟩
    · rw [heq, Edit.consumed_copy]
      exact turn_after hnested
    · rw [heq, Edit.consumed_copy]
      exact turn_afterPair hpair

theorem reaches_nested (h : (keywordPass table).Reaches source done regions place) : regions.Nested := by
  induction h with
  | start => exact OpenRegions.nested_bottom
  | step _ hrest ih => exact (step_turn ih hrest).nested ih

/-! ## What a hole counts -/

/-- The visit was made in the hole that stands on `outer` and read the brace there. -/
def countsBrace (outer : List Region) (brace : Char) (v : Visit OpenRegions) : Bool :=
  decide (v.state.holeDepth?.isSome = true ∧ v.state.inner.tail = outer ∧ v.place.rest.head? = some brace)

/-- How often the hole that stands on `outer` read the brace itself. -/
def countedBy (outer : List Region) (brace : Char) (visits : List (Visit OpenRegions)) : Nat :=
  visits.countP (countsBrace outer brace)

/-- A hole on `outer` was opened by one of the visits and is open ever since; its depth is one more than what is left of
the braces that it read itself. -/
structure Counts (done : List (Visit OpenRegions)) (depth : Nat) (outer : List Region) : Prop where
  opened : ∃ earlier opener later, done = earlier ++ opener :: later ∧
    opener.state = ⟨outer⟩ ∧ opener.state.innermost = .template ∧ opener.edit.consumed = ['$', '{'] ∧
    (∀ v ∈ later, ∃ above d, v.state.inner = above ++ .hole d :: outer) ∧
    depth + countedBy outer '}' later = 1 + countedBy outer '{' later

theorem countedBy_append (outer : List Region) (brace : Char) (visits : List (Visit OpenRegions))
    (v : Visit OpenRegions) :
    countedBy outer brace (visits ++ [v]) = countedBy outer brace visits + (countsBrace outer brace v).toNat := by
  rw [countedBy, List.countP_append, List.countP_singleton, ← countedBy]
  cases countsBrace outer brace v <;> rfl

theorem Counts.append {v : Visit OpenRegions} {before : Nat} (h : Counts done before outer)
    (hopen : ∃ above d, v.state.inner = above ++ .hole d :: outer)
    (hdepth : depth + (countsBrace outer '}' v).toNat = before + (countsBrace outer '{' v).toNat) :
    Counts (done ++ [v]) depth outer := by
  obtain ⟨earlier, opener, later, rfl, hstate, htemplate, hread, hlater, hcount⟩ := h.opened
  refine ⟨earlier, opener, later ++ [v], by simp, hstate, htemplate, hread, fun u hu => ?_, ?_⟩
  · rcases List.mem_append.1 hu with hu | hu
    · exact hlater u hu
    · exact List.mem_singleton.1 hu ▸ hopen
  · rw [countedBy_append, countedBy_append]
    omega

theorem countsBrace_eq_false {v : Visit OpenRegions} {brace : Char}
    (h : v.state.holeDepth?.isSome = true → v.state.inner.tail = outer → v.place.rest.head? ≠ some brace) :
    countsBrace outer brace v = false :=
  decide_eq_false fun ⟨hhole, htail, hhead⟩ => h hhole htail hhead

theorem Counts.pass {v : Visit OpenRegions} (h : Counts done depth outer)
    (hopen : ∃ above d, v.state.inner = above ++ .hole d :: outer)
    (hcounts : v.state.holeDepth?.isSome = true → v.state.inner.tail = outer →
      v.place.rest.head? ≠ some '{' ∧ v.place.rest.head? ≠ some '}') : Counts (done ++ [v]) depth outer := by
  have hopening : countsBrace outer '{' v = false := countsBrace_eq_false fun hhole htail => (hcounts hhole htail).1
  have hclosing : countsBrace outer '}' v = false := countsBrace_eq_false fun hhole htail => (hcounts hhole htail).2
  exact h.append hopen (by rw [hopening, hclosing])

theorem ne_append_cons {above : List Region} : outer ≠ above ++ region :: outer := fun h => by
  have := congrArg List.length h
  simp only [List.length_append, List.length_cons] at this
  omega

/-- A turn leaves the count of every hole that stays open as it is, or counts the brace that was read. -/
theorem Counts.turn {v : Visit OpenRegions} {above : List Region}
    (hcounts : ∀ above depth outer, v.state.inner = above ++ .hole depth :: outer → Counts done depth outer)
    (hturn : v.state.Turn piece next) (hread : v.edit.consumed = piece) (hhead : piece.head? = v.place.rest.head?)
    (hnext : next.inner = above ++ .hole depth :: outer) : Counts (done ++ [v]) depth outer := by
  rcases v with ⟨offset, place, regions, edit⟩
  dsimp only at hcounts hturn hread hhead
  -- the holes above the innermost region were open before
  have hbelow : ∀ {above : List Region}, regions.inner = above ++ .hole depth :: outer → above ≠ [] →
      Counts (done ++ [⟨offset, place, regions, edit⟩]) depth outer := by
    intro above hinner hne
    refine (hcounts above depth outer hinner).pass ⟨above, depth, hinner⟩ fun _ htail => ?_
    obtain ⟨region, above, rfl⟩ := List.exists_cons_of_ne_nil hne
    rw [hinner] at htail
    exact absurd htail.symm ne_append_cons
  cases hturn with
  | stay hquiet =>
      refine (hcounts above depth outer hnext).pass ⟨above, depth, hnext⟩ fun hhole _ => ?_
      rw [← hhead]
      exact hquiet.counts hhole
  | @opens _ opening region hcode hopen =>
      rcases List.cons_eq_append_iff.1 hnext with ⟨-, hcons⟩ | ⟨above, -, hinner⟩
      · obtain ⟨rfl, -⟩ := List.cons.inj hcons
        cases hopen
      · refine (hcounts above depth outer hinner).pass ⟨above, depth, hinner⟩ fun _ _ => ?_
        rw [← hhead]
        cases hopen <;> simp
  | @hole below =>
      rcases List.cons_eq_append_iff.1 hnext with ⟨-, hcons⟩ | ⟨above, -, hinner⟩
      · obtain ⟨hdepth, rfl⟩ := List.cons.inj hcons
        obtain rfl := Region.hole.inj hdepth
        exact ⟨done, _, [], rfl, rfl, rfl, hread, nofun, rfl⟩
      · rcases List.cons_eq_append_iff.1 hinner with ⟨-, hcons⟩ | ⟨above, rfl, -⟩
        · cases hcons
        · exact hbelow hinner (List.cons_ne_nil _ _)
  | @opening d below =>
      rcases List.cons_eq_append_iff.1 hnext with ⟨-, hcons⟩ | ⟨above, -, hinner⟩
      · obtain ⟨hdepth, rfl⟩ := List.cons.inj hcons
        obtain rfl := Region.hole.inj hdepth
        refine (hcounts [] d outer rfl).append ⟨[], d, rfl⟩ ?_
        simp [countsBrace, ← hhead, OpenRegions.holeDepth?]
      · exact hbelow (congrArg (Region.hole d :: ·) hinner) (List.cons_ne_nil _ above)
  | @closing d below hpos =>
      rcases List.cons_eq_append_iff.1 hnext with ⟨-, hcons⟩ | ⟨above, -, hinner⟩
      · obtain ⟨hdepth, rfl⟩ := List.cons.inj hcons
        obtain rfl := Region.hole.inj hdepth
        refine (hcounts [] (depth + 1) outer rfl).append ⟨[], depth + 1, rfl⟩ ?_
        simp [countsBrace, ← hhead, OpenRegions.holeDepth?]
      · exact hbelow (congrArg (Region.hole (d + 1) :: ·) hinner) (List.cons_ne_nil _ above)
  | @closed below => exact hbelow (congrArg (Region.hole 1 :: ·) hnext) (List.cons_ne_nil _ above)
  | @ends region _ below hends => exact hbelow (congrArg (region :: ·) hnext) (List.cons_ne_nil _ above)

theorem reaches_counts (h : (keywordPass table).Reaches source done regions place) :
    ∀ above depth outer, regions.inner = above ++ .hole depth :: outer → Counts done depth outer := by
  induction h with
  | start => exact fun _ _ _ h => (List.append_ne_nil_of_right_ne_nil _ (List.cons_ne_nil _ _) h.symm).elim
  | @step done regions place h hrest ih =>
      obtain ⟨rest, hread⟩ := Pass.consumed_prefix (keywordPass table) regions place
      have hne := (keywordPass table).consumed_ne_nil regions place hrest
      rw [keywordPass_step] at hread hne ⊢
      have hhead : (step table regions place).1.consumed.head? = place.rest.head? := by
        obtain ⟨c, piece, hc⟩ := List.exists_cons_of_ne_nil hne
        rw [← hread, hc]
        rfl
      intro above depth outer hnext
      exact .turn (v := ⟨_, place, regions, _⟩) ih (step_turn (reaches_nested h) hrest) rfl hhead hnext

/-! ## Whole runs -/

/-- What holds of the open regions before every visit of a trace and at its end. -/
structure KeepsNesting (trace : Trace OpenRegions) : Prop where
  nested : ∀ earlier later, trace.visits = earlier ++ later → (trace.stateAt later).Nested
  /-- The depth of a hole is one more than what is left of the braces that it read itself. -/
  counts : ∀ earlier later, trace.visits = earlier ++ later → ∀ above depth outer,
    (trace.stateAt later).inner = above ++ .hole depth :: outer → Counts earlier depth outer
  /-- A visit opens a region, ends the innermost one, counts a brace of a hole or leaves the regions as they are. -/
  turns : ∀ earlier v later, trace.visits = earlier ++ v :: later → v.state.Turn v.edit.consumed (trace.stateAt later)
  /-- A `}` that a hole counts takes one from its depth, which is never zero. -/
  exact : ∀ v ∈ trace.visits, ∀ depth, v.state.holeDepth? = some depth →
    ∃ left, depth = left + 1 ∧ v.state.countClosing.holeDepth? = some left
  /-- Where a hole is ended the regions are those in which it was opened, and the innermost one is its template. -/
  returns : ∀ earlier v later, trace.visits = earlier ++ v :: later → v.state.holeDepth? = some 1 →
    v.place.rest.head? = some '}' → ∃ opener ∈ earlier, opener.edit.consumed = ['$', '{'] ∧
      opener.state.innermost = .template ∧ trace.stateAt later = opener.state

theorem inner_of_holeDepth? (h : regions.holeDepth? = some depth) : ∃ outer, regions.inner = .hole depth :: outer := by
  rcases regions with ⟨_ | ⟨region, outer⟩⟩
  · cases h
  · cases region with
    | hole d =>
        obtain rfl : d = depth := Option.some.inj h
        exact ⟨outer, rfl⟩
    | _ => cases h

theorem exact_of_nested (hnested : regions.Nested) (hdepth : regions.holeDepth? = some depth) :
    ∃ left, depth = left + 1 ∧ regions.countClosing.holeDepth? = some left := by
  obtain ⟨outer, hinner⟩ := inner_of_holeDepth? hdepth
  obtain ⟨hpos, -⟩ := hnested.hole [] depth outer hinner
  refine ⟨depth - 1, by omega, ?_⟩
  rw [OpenRegions.countClosing, hinner]
  rfl

theorem step_closing (hinner : regions.inner = .hole 1 :: outer) (hhead : place.rest.head? = some '}') :
    (step table regions place).2 = ⟨outer⟩ := by
  obtain ⟨inner⟩ := regions
  obtain rfl : inner = .hole 1 :: outer := hinner
  obtain ⟨rest, hrest⟩ := List.head?_eq_some_iff.1 hhead
  have hplace : place = ⟨place.before, '}' :: rest⟩ := by rw [← hrest]
  rw [hplace]
  rfl

/-- In a run with any table the open regions are nested, every hole counts its own braces, and each step does to the
regions what the text that it reads says. -/
theorem scan_keeps_nesting (table : List Rule) {source : List Char} (hbraces : source.count '{' < Region.maxHoleDepth) :
    ∃ trace, traceKeywords table source = .ok trace ∧ KeepsNesting trace := by
  obtain ⟨stop, -, hend⟩ := (keywordPass table).run_reaches source
  have hreach : ∀ {earlier later}, ((keywordPass table).run source).visits = earlier ++ later →
      ∃ place, (keywordPass table).Reaches source earlier (((keywordPass table).run source).stateAt later) place :=
    fun hvisits => (hend.of_append hvisits).imp fun _ h => h.1
  have hvisit : ∀ {earlier v later}, ((keywordPass table).run source).visits = earlier ++ v :: later →
      (keywordPass table).Reaches source earlier v.state v.place ∧ v.place.rest ≠ [] ∧
        v.edit = (step table v.state v.place).1 ∧
        ((keywordPass table).run source).stateAt later = (step table v.state v.place).2 := by
    intro earlier v later hvisits
    rw [List.append_cons] at hvisits
    obtain ⟨_, h⟩ := hreach hvisits
    exact h.of_concat
  refine ⟨_, traceKeywords_ok table hbraces, ?_⟩
  constructor
  case nested =>
    intro earlier later hvisits
    obtain ⟨_, h⟩ := hreach hvisits
    exact reaches_nested h
  case counts =>
    intro earlier later hvisits
    obtain ⟨_, h⟩ := hreach hvisits
    exact reaches_counts h
  case turns =>
    intro earlier v later hvisits
    obtain ⟨h, hrest, hedit, hstate⟩ := hvisit hvisits
    rw [hedit, hstate]
    exact step_turn (reaches_nested h) hrest
  case exact =>
    intro v hv depth hdepth
    obtain ⟨_, h, _⟩ := Pass.of_mem_run hv
    exact exact_of_nested (reaches_nested h) hdepth
  case returns =>
    intro earlier v later hvisits hdepth hhead
    obtain ⟨h, -, -, hstate⟩ := hvisit hvisits
    obtain ⟨outer, hinner⟩ := inner_of_holeDepth? hdepth
    obtain ⟨before, opener, after, rfl, hopener, htemplate, hread, -⟩ := (reaches_counts h [] 1 outer hinner).opened
    exact ⟨opener, by simp, hread, htemplate, by rw [hstate, step_closing hinner hhead, hopener]⟩

/-- Holes in holes with braces, strings and comments in them, and a brace that belongs to a spelling. -/
def nestedHoles : List Char :=
  "`$\x7b \x7b \"\x7d\" `$\x7b/* \x7d */ \x7d` ab \x7d a".toList

theorem scan_keeps_nesting_of_holes :
    nestedHoles.count '{' < Region.maxHoleDepth ∧
      ∃ trace, traceKeywords (.anywhere "b \x7d" "\x7b" :: overlappingTable) nestedHoles = .ok trace ∧
        KeepsNesting trace :=
  ⟨by decide, scan_keeps_nesting _ (by decide)⟩

end Keywords

end HangulScript

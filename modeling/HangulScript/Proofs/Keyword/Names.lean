import HangulScript.Proofs.Keyword.Table
import Mathlib.Data.List.Find
import Mathlib.Data.List.Pairwise
import Mathlib.Data.List.SplitBy

/-!
# Tables of names

In a table of names every spelling is an identifier that must stand alone, so a rule applies to a whole run of
identifier characters or to none of it. A text is cut into such runs, and each of them is looked up in the table.
-/

namespace HangulScript

open Text

/-- A list begins with a run of elements that have the property, up to the first one that does not. -/
theorem Text.exists_run {α : Type} (p : α → Bool) (l : List α) :
    ∃ run rest, l = run ++ rest ∧ (∀ a ∈ run, p a = true) ∧ rest.head?.any p = false := by
  induction l with
  | nil => exact ⟨[], [], rfl, nofun, rfl⟩
  | cons a l ih =>
      cases hp : p a with
      | false => exact ⟨[], a :: l, rfl, nofun, by rw [List.head?_cons, Option.any_some, hp]⟩
      | true =>
          obtain ⟨run, rest, rfl, hrun, hstop⟩ := ih
          exact ⟨a :: run, rest, rfl, List.forall_mem_cons.2 ⟨hp, hrun⟩, hstop⟩

/-- A name that begins a text and is not touched by an identifier there is all of the identifier that begins it. -/
theorem Text.eq_of_prefix {name word rest : List Char} (hname : ∀ c ∈ name, isNameChar c = true)
    (hword : ∀ c ∈ word, isNameChar c = true) (hstop : rest.head?.any isNameChar = false)
    (hbegins : name <+: word ++ rest) (hfree : ((word ++ rest).drop name.length).head?.any isNameChar = false) :
    name = word := by
  obtain ⟨after, hafter⟩ := hbegins
  rw [← hafter, List.drop_left] at hfree
  rcases append_cases hafter with ⟨more, rfl, rfl⟩ | ⟨more, hne, rfl, rfl⟩
  · cases more with
    | nil => rw [List.append_nil]
    | cons c more => simp [hword c (by simp)] at hfree
  · obtain ⟨c, more, rfl⟩ := List.exists_cons_of_ne_nil hne
    simp [hname c (by simp)] at hstop

namespace Rule

/-- The spelling is an identifier, and it must stand alone. -/
def IsName (rule : Rule) : Prop :=
  rule.standsAlone = true ∧ ∀ c ∈ rule.spelling, isNameChar c = true

variable {table : List Rule} {rule : Rule} {place : Cursor} {word rest : List Char}

/-- At the beginning of a maximal run of identifier characters a name applies if it is the whole run. -/
theorem IsName.applies_iff (h : rule.IsName) (hrest : place.rest = word ++ rest)
    (hword : ∀ c ∈ word, isNameChar c = true) (hstop : rest.head?.any isNameChar = false) :
    rule.applies place = true ↔ place.freeBefore = true ∧ rule.spelling = word := by
  rw [applies_eq_holdsWord h.1, Cursor.holdsWord_iff]
  constructor
  · rintro ⟨hbegins, hbefore, hafter⟩
    refine ⟨hbefore, eq_of_prefix h.2 hword hstop (hrest ▸ hbegins) ?_⟩
    simpa [Cursor.freeAfter, hrest] using hafter
  · rintro ⟨hbefore, rfl⟩
    exact ⟨⟨rest, hrest.symm⟩, hbefore, by simp [Cursor.freeAfter, hrest, hstop]⟩

theorem firstMatch?_of_word (h : ∀ rule ∈ table, rule.IsName) (hrest : place.rest = word ++ rest)
    (hword : ∀ c ∈ word, isNameChar c = true) (hstop : rest.head?.any isNameChar = false) :
    firstMatch? table place = if place.freeBefore then table.find? (·.spelling = word) else none := by
  have happlies : ∀ rule ∈ table, rule.applies place = (place.freeBefore && decide (rule.spelling = word)) := by
    intro rule hrule
    rw [Bool.eq_iff_iff, (h rule hrule).applies_iff hrest hword hstop, Bool.and_eq_true, decide_eq_true_iff]
  cases hfree : place.freeBefore with
  | true =>
      refine List.find?_congr fun rule hrule => ?_
      rw [happlies rule hrule, hfree, Bool.true_and]
  | false =>
      refine List.find?_eq_none.2 fun rule hrule => ?_
      rw [happlies rule hrule, hfree]
      simp

theorem holdsWord_of_firstMatch? (h : ∀ rule ∈ table, rule.IsName) (hrule : firstMatch? table place = some rule) :
    place.holdsWord rule.spelling = true := by
  rw [← applies_eq_holdsWord (h rule (mem_of_firstMatch? hrule)).1]
  exact applies_of_firstMatch? hrule

end Rule

namespace Keywords

variable {table : List Rule} {regions : OpenRegions} {word : List Char} {m : Char × OpenRegions}
  {characters token : List (Char × OpenRegions)}

/-! ## Tokens -/

/-- Both characters can stand in an identifier. -/
def adjoin (a b : Char × OpenRegions) : Bool :=
  isNameChar a.1 && isNameChar b.1

/-- The maximal runs of identifier characters, and every other character alone. -/
def tokens (characters : List (Char × OpenRegions)) : List (List (Char × OpenRegions)) :=
  characters.splitBy adjoin

theorem tokens_append {a b : List (Char × OpenRegions)}
    (h : a.getLast?.any (isNameChar ·.1) = false ∨ b.head?.any (isNameChar ·.1) = false) :
    tokens (a ++ b) = tokens a ++ tokens b := by
  refine List.splitBy_append fun x hx y hy => ?_
  rw [Option.mem_def] at hx hy
  rw [hx, hy, Option.any_some, Option.any_some] at h
  rwa [adjoin, Bool.and_eq_false_iff]

theorem tokens_word (hne : characters ≠ []) (hname : ∀ m ∈ characters, isNameChar m.1 = true) :
    tokens characters = [characters] := by
  refine List.splitBy_of_isChain hne (List.Pairwise.isChain ?_)
  refine List.pairwise_of_forall_mem_list fun a ha b hb => ?_
  rw [adjoin, hname a ha, hname b hb, Bool.true_and]

theorem tokens_word_append {word : List (Char × OpenRegions)} (hne : word ≠ [])
    (hname : ∀ m ∈ word, isNameChar m.1 = true) (hstop : characters.head?.any (isNameChar ·.1) = false) :
    tokens (word ++ characters) = word :: tokens characters := by
  rw [tokens_append (Or.inr hstop), tokens_word hne hname, List.singleton_append]

theorem tokens_kinds (h : token ∈ tokens characters) :
    (∃ m, token = [m] ∧ isNameChar m.1 = false) ∨ (token ≠ [] ∧ ∀ m ∈ token, isNameChar m.1 = true) := by
  have hchain := List.isChain_of_mem_splitBy h
  have hne := List.ne_nil_of_mem_splitBy h
  by_cases hname : isNameChar (token.head hne).1 = true
  · have hall := hchain.induction (fun m : Char × OpenRegions => isNameChar m.1 = true) token
      (fun a b hadjoin _ => (Bool.and_eq_true_iff.1 hadjoin).2) fun _ => hname
    exact Or.inr ⟨hne, hall⟩
  · obtain ⟨m, token, rfl⟩ := List.exists_cons_of_ne_nil hne
    rw [List.head_cons, Bool.not_eq_true] at hname
    cases token with
    | nil => exact Or.inl ⟨m, rfl, hname⟩
    | cons n token =>
        have hadjoin := (List.isChain_cons_cons.1 hchain).1
        rw [adjoin, hname, Bool.false_and] at hadjoin
        cases hadjoin

theorem tokens_maximal (characters : List (Char × OpenRegions)) : (tokens characters).IsChain fun a b =>
    (∃ m ∈ a, isNameChar m.1 = false) ∨ ∃ m ∈ b, isNameChar m.1 = false := by
  refine (List.isChain_getLast_head_splitBy adjoin characters).imp ?_
  rintro a b ⟨ha, hb, hsplit⟩
  rcases (Bool.and_eq_false_iff ..).1 hsplit with hlast | hfirst
  · exact Or.inl ⟨_, List.getLast_mem ha, hlast⟩
  · exact Or.inr ⟨_, List.head_mem hb, hfirst⟩

/-- Where identifier characters that touch lie in the same regions, the characters of a token do. -/
theorem tokens_within (h : characters.IsChain fun a b => isNameChar a.1 = true → a.2 = b.2)
    (htoken : token ∈ tokens characters) : ∀ m ∈ token, ∀ n ∈ token, m.2 = n.2 := by
  rcases tokens_kinds htoken with ⟨m, rfl, -⟩ | ⟨hne, hname⟩
  · simp
  · have hinfix : token <:+: characters := by
      simpa [tokens] using List.infix_of_mem_flatten htoken
    have hstays := List.IsChain.infix h hinfix
    have hchain : token.IsChain fun a b => a.2 = b.2 :=
      hstays.imp_of_mem_imp fun a b ha _ hstay => hstay (hname a ha)
    have hhead : ∀ m ∈ token, m.2 = (token.head hne).2 :=
      hchain.induction (·.2 = (token.head hne).2) token (fun _ _ hsame hfirst => hsame.symm.trans hfirst) fun _ => rfl
    exact fun m hm n hn => (hhead m hm).trans (hhead n hn).symm

/-! ## Looking up every token -/

/-- What the table has for an identifier: the replacement of the first rule with that spelling, else the identifier. -/
def lookUpWord (table : List Rule) (word : List Char) : List Char :=
  ((table.find? (·.spelling = word)).map Rule.replacement).getD word

/-- What is written for a token: one that is code is looked up. -/
def lookUp (table : List Rule) (token : List (Char × OpenRegions)) : List Char :=
  if token.all (·.2.innermost.holdsCode) then lookUpWord table (token.map Prod.fst) else token.map Prod.fst

/-- What is written for a text when every token is looked up. -/
def lookUpAll (table : List Rule) (characters : List (Char × OpenRegions)) : List Char :=
  (tokens characters).flatMap (lookUp table)

theorem lookUpWord_of_notName (h : ∀ rule ∈ table, rule.IsName) (hword : word = [] ∨ ∃ c ∈ word, isNameChar c = false) :
    lookUpWord table word = word := by
  have hnone : table.find? (·.spelling = word) = none := by
    refine List.find?_eq_none.2 fun rule hrule hspelling => ?_
    obtain rfl := of_decide_eq_true hspelling
    rcases hword with hnil | ⟨c, hc, hname⟩
    · exact rule.spelling_ne_nil hnil
    · rw [(h rule hrule).2 c hc] at hname
      cases hname
  rw [lookUpWord, hnone]
  rfl

theorem lookUpAll_word_append (h : ∀ rule ∈ table, rule.IsName) (hcode : regions.innermost.holdsCode = true)
    (hname : ∀ c ∈ word, isNameChar c = true) (hstop : characters.head?.any (isNameChar ·.1) = false) :
    lookUpAll table (word.map (·, regions) ++ characters) = lookUpWord table word ++ lookUpAll table characters := by
  by_cases hnil : word = []
  · rw [lookUpWord_of_notName h (Or.inl hnil), hnil]
    rfl
  · rw [lookUpAll, tokens_word_append (by simpa using hnil) (by simpa using hname) hstop, List.flatMap_cons]
    have hword : (word.map (·, regions)).map Prod.fst = word := by simp [Function.comp_def]
    rw [lookUp, hword, if_pos (by simp [hcode])]
    rfl

theorem lookUp_of_not_code (hm : m ∈ token) (hcode : m.2.innermost.holdsCode = false) :
    lookUp table token = token.map Prod.fst := by
  refine if_neg fun hall => ?_
  rw [List.all_eq_true.1 hall m hm] at hcode
  cases hcode

theorem lookUp_singleton (h : ∀ rule ∈ table, rule.IsName)
    (hm : isNameChar m.1 = true → m.2.innermost.holdsCode = false) : lookUp table [m] = [m.1] := by
  cases hname : isNameChar m.1 with
  | true => exact lookUp_of_not_code List.mem_cons_self (hm hname)
  | false =>
      rw [lookUp, lookUpWord_of_notName h (Or.inr ⟨m.1, by simp, hname⟩)]
      exact ite_self _

/-- A character that is no part of an identifier in code is kept. -/
theorem lookUpAll_cons (h : ∀ rule ∈ table, rule.IsName)
    (hm : isNameChar m.1 = true → m.2.innermost.holdsCode = false ∧
      ∀ n ∈ characters.head?, n.2.innermost.holdsCode = false) :
    lookUpAll table (m :: characters) = m.1 :: lookUpAll table characters := by
  obtain ⟨word, rest, rfl, hname, hstop⟩ := exists_run (isNameChar ·.1) characters
  by_cases halone : isNameChar m.1 = false ∨ word = []
  · -- the character is a token of its own
    have hsplit : [m].getLast?.any (isNameChar ·.1) = false ∨ (word ++ rest).head?.any (isNameChar ·.1) = false := by
      rcases halone with hnone | rfl
      · exact Or.inl (by simpa using hnone)
      · exact Or.inr hstop
    rw [lookUpAll, ← List.singleton_append, tokens_append hsplit, List.flatMap_append]
    have hsingle : tokens [m] = [[m]] := rfl
    rw [hsingle, List.flatMap_singleton, lookUp_singleton h fun hname => (hm hname).1]
    rfl
  · obtain ⟨hnot, hne⟩ := not_or.1 halone
    rw [Bool.not_eq_false] at hnot
    obtain ⟨hout, hhead⟩ := hm hnot
    obtain ⟨n, word, rfl⟩ := List.exists_cons_of_ne_nil hne
    -- the run that goes on after the character is no code either
    have hword : ∀ l ∈ m :: n :: word, isNameChar l.1 = true := by
      intro l hl
      rcases List.mem_cons.1 hl with rfl | hl
      · exact hnot
      · exact hname l hl
    rw [lookUpAll, ← List.cons_append, tokens_word_append (List.cons_ne_nil _ _) hword hstop, List.flatMap_cons,
      lookUp_of_not_code List.mem_cons_self hout]
    rw [lookUpAll, tokens_word_append hne hname hstop, List.flatMap_cons,
      lookUp_of_not_code List.mem_cons_self (hhead n rfl)]
    rfl

theorem lookUpAll_copied (h : ∀ rule ∈ table, rule.IsName) {piece : List Char}
    (hpiece : ∀ c ∈ piece, isNameChar c = true → regions.innermost.holdsCode = false)
    (hlast : ∀ c ∈ piece.getLast?, isNameChar c = true → ∀ n ∈ characters.head?, n.2 = regions) :
    lookUpAll table (piece.map (·, regions) ++ characters) = piece ++ lookUpAll table characters := by
  induction piece with
  | nil => rfl
  | cons c piece ih =>
      rw [List.map_cons, List.cons_append, lookUpAll_cons h, List.cons_append, ih]
      · exact fun d hd => hpiece d (List.mem_cons_of_mem c hd)
      · intro d hd
        refine hlast d ?_
        cases piece with
        | nil => cases hd
        | cons e piece => rwa [List.getLast?_cons_cons]
      · intro hname
        have hout := hpiece c List.mem_cons_self hname
        refine ⟨hout, fun n hn => ?_⟩
        cases piece with
        | nil =>
            rw [hlast c rfl hname n (by simpa using hn)]
            exact hout
        | cons e piece =>
            obtain rfl : (e, regions) = n := by simpa using hn
            exact hout

end Keywords

end HangulScript

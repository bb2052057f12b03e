import HangulScript.Diagnostic.Report
import HangulScript.Proofs.Json.Printing

/-!
# Reports as JSON

The text of reports says all that the reports hold but for the texts that were checked.
-/

namespace HangulScript

open Json Text

/-! ## What reports say -/

/-- The members that say what a diagnostic holds. -/
def Diagnostic.datum (diagnostic : Diagnostic) : Datum :=
  .object [(units "file".toList, .string (units diagnostic.file)), (units "line".toList, .number diagnostic.line),
    (units "column".toList, .number diagnostic.column), (units "message".toList, .string (units diagnostic.message)),
    (units "rendered".toList, .string (units diagnostic.rendered))]

/-- The members that say what a report holds, but for the text that was checked. -/
def Report.datum (report : Report) : Datum :=
  .object [(units "file".toList, .string (units report.file)),
    (units "diagnostics".toList, .array (report.diagnostics.map Diagnostic.datum))]

theorem Diagnostic.datum_toJson (diagnostic : Diagnostic) : diagnostic.toJson.datum = diagnostic.datum :=
  rfl

theorem Report.datum_toJson (report : Report) : report.toJson.datum = report.datum := by
  have hone : Value.datum ∘ Diagnostic.toJson = Diagnostic.datum := funext Diagnostic.datum_toJson
  simp only [Report.toJson, Report.datum, Value.datum, Value.memberData, Value.itemData_eq_map, List.map_map, hone]

/-! ## Reading reports -/

namespace Json.Datum

def text? : Datum → Option (List Char)
  | .string units => textOfUnits? units
  | _ => none

def nat? : Datum → Option Nat
  | .number value => if value = value.num.toNat then some value.num.toNat else none
  | _ => none

def items? : Datum → Option (List Datum)
  | .array items => some items
  | _ => none

def member? (name : List Char) : Datum → Option Datum
  | .object members => members.lookup (units name)
  | _ => none

theorem member?_object_cons (name other : List Char) (datum : Datum) (members : List (List Nat × Datum)) :
    (object ((units other, datum) :: members)).member? name =
      if name = other then some datum else (object members).member? name := by
  split_ifs with h
  · rw [h, member?, List.lookup_cons_self]
  · rw [member?, member?, List.lookup_cons, beq_eq_false_iff_ne.2 (h ∘ units_inj.1)]

@[simp] theorem text?_string_units (text : List Char) : (string (units text)).text? = some text :=
  textOfUnits?_units text

@[simp] theorem nat?_number (n : Nat) : (number n).nat? = some n :=
  if_pos rfl

end Json.Datum

/-- The diagnostic that an object says. -/
def Diagnostic.ofDatum? (datum : Datum) : Option Diagnostic := do
  let file ← (← datum.member? "file".toList).text?
  let line ← (← datum.member? "line".toList).nat?
  let column ← (← datum.member? "column".toList).nat?
  let message ← (← datum.member? "message".toList).text?
  let rendered ← (← datum.member? "rendered".toList).text?
  return ⟨file, line, column, message, rendered⟩

namespace Report

/-- The report that an object says. It has no text. -/
def ofDatum? (datum : Datum) : Option Report := do
  let file ← (← datum.member? "file".toList).text?
  let diagnostics ← (← datum.member? "diagnostics".toList).items?
  return ⟨file, [], ← diagnostics.mapM Diagnostic.ofDatum?⟩

/-- The reports that an array says. -/
def allOfDatum? (datum : Datum) : Option (List Report) := do
  (← datum.items?).mapM ofDatum?

def withoutText (report : Report) : Report :=
  { report with text := [] }

end Report

theorem Diagnostic.ofDatum?_datum (diagnostic : Diagnostic) : ofDatum? diagnostic.datum = some diagnostic := by
  simp [ofDatum?, datum, Datum.member?_object_cons]

namespace Report

theorem ofDatum?_datum (report : Report) : ofDatum? report.datum = some report.withoutText := by
  have hone : Diagnostic.ofDatum? ∘ Diagnostic.datum = pure := funext Diagnostic.ofDatum?_datum
  have hall : (report.diagnostics.map Diagnostic.datum).mapM Diagnostic.ofDatum? = some report.diagnostics := by
    rw [List.mapM_map, hone]
    exact List.mapM_pure.trans (congrArg some (List.map_id _))
  simp [ofDatum?, datum, Datum.member?_object_cons, Datum.items?, hall, withoutText]

theorem allOfDatum?_data (reports : List Report) :
    allOfDatum? (.array (reports.map datum)) = some (reports.map withoutText) := by
  have hone : ofDatum? ∘ datum = fun report => pure report.withoutText := funext ofDatum?_datum
  exact (List.mapM_map.trans (hone ▸ List.mapM_pure) : (reports.map datum).mapM ofDatum? = _)

/-! ## The text of reports -/

theorem pretty_withoutText (reports : List Report) : pretty (reports.map withoutText) = pretty reports := by
  rw [pretty, pretty, List.map_map]
  rfl

theorem spells_pretty_iff (reports : List Report) {blank : List Char} (hblank : IsBlank blank) (datum : Datum) :
    Spells (pretty reports ++ blank) datum ↔ datum = .array (reports.map Report.datum) := by
  have hdatum : (Value.array (reports.map toJson)).datum = .array (reports.map Report.datum) := by
    rw [Value.datum, Value.itemData_eq_map, List.map_map]
    exact congrArg Datum.array (List.map_congr_left fun report _ => report.datum_toJson)
  rw [pretty, Value.spells_pretty_iff 0 _ hblank, hdatum]

theorem pretty_inj {reports others : List Report} :
    pretty reports = pretty others ↔ reports.map withoutText = others.map withoutText := by
  constructor
  · intro htext
    have hspells : Spells (pretty reports ++ []) (.array (others.map datum)) := by
      rw [htext]
      exact (spells_pretty_iff others isBlank_nil _).2 rfl
    have hdata := (spells_pretty_iff reports isBlank_nil _).1 hspells
    have hread := allOfDatum?_data others
    rw [hdata, allOfDatum?_data] at hread
    exact Option.some.inj hread
  · intro hreports
    rw [← pretty_withoutText, hreports, pretty_withoutText]

/-- What is printed for reports is JSON and says nothing but the reports in order, each with its file and its diagnostics,
and each diagnostic with all that it holds. The reports are read off what it says but for the checked texts, and reports
that differ in more than these texts are printed differently. -/
theorem json_keeps_all_but_texts (reports : List Report) :
    (∀ datum, Spells (pretty reports ++ ['\n']) datum ↔ datum = .array (reports.map Report.datum)) ∧
    allOfDatum? (.array (reports.map Report.datum)) = some (reports.map withoutText) ∧
    ∀ others, pretty reports ++ ['\n'] = pretty others ++ ['\n'] ↔ reports.map withoutText = others.map withoutText := by
  refine ⟨spells_pretty_iff reports (by decide), allOfDatum?_data reports, fun others => ?_⟩
  rw [List.append_cancel_right_eq, pretty_inj]

/-- Quotes, a control character and a newline in the strings, and a text that is not printed. -/
example :
    (pretty [⟨"a.ts".toList, "x".toList, [⟨"a.ts".toList, 1, 12, "\"\x01\"".toList, "1 | \\\n".toList⟩]⟩]).splitOn '\n' =
      ["[",
        "  \x7b",
        "    \"file\": \"a.ts\",",
        "    \"diagnostics\": [",
        "      \x7b",
        "        \"file\": \"a.ts\",",
        "        \"line\": 1,",
        "        \"column\": 12,",
        "        \"message\": \"\\\"\\u0001\\\"\",",
        "        \"rendered\": \"1 | \\\\\\n\"",
        "      \x7d",
        "    ]",
        "  \x7d",
        "]"].map String.toList := by
  decide +kernel

end Report

end HangulScript

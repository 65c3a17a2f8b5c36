import MUtils.Verify.StringSplit

/-!
# Grids of fields and flat lists of fields

Splitting a text into lines and the lines into fields gives the same fields, in the same order, as
splitting it once at all the delimiters (`runs_or`). So the grids hold what the flat lists hold, and
the integers of a text can be read from both or from neither.
-/

namespace MUtils
open Text Outcome

variable {text : Text} {delims delims' : Text}

/-- The fields of all lines are the fields of the text. -/
theorem flatten_split_lines (hdelims : ∀ c, delims'.contains c =
      (['\r', '\n'].contains c || delims.contains c)) :
    ((string_split_lines text).map (string_split · delims)).flatten =
      string_split text delims' := by
  have hsplit : (string_split · delims) = runs (delims.contains ·) :=
    funext fun _ => string_split_eq_runs
  rw [string_split_lines, string_split_eq_runs, string_split_eq_runs, runs_or hdelims, hsplit,
    List.flatMap_def]

theorem mapM_flatten {ε α β : Type} (f : α → Except ε β) (rows : List (List α)) :
    rows.flatten.mapM f = (rows.mapM (List.mapM f)).map List.flatten := by
  induction rows with
  | nil => rfl
  | cons row rows ih =>
    rw [List.flatten_cons, List.mapM_append, ih, List.mapM_cons]
    cases row.mapM f with
    | error e => rfl
    | ok vals => cases rows.mapM (List.mapM f) <;> rfl

/-- The integers of a text, and the exception if one of them cannot be read, are those of its
grid. -/
theorem string_get_integers_eq : string_get_integers text =
    (string_get_integer_grid text ['\t', ' ', ',']).map List.flatten := by
  have hdelims : ∀ c, ['\t', '\n', '\r', ' ', ','].contains c =
      (['\r', '\n'].contains c || ['\t', ' ', ','].contains c) := by
    intro c
    simp only [List.contains_cons, List.contains_nil, Bool.or_false]
    ac_rfl
  have hrows : string_get_integer_grid text ['\t', ' ', ','] =
      (((string_split_lines text).map (string_split · ['\t', ' ', ','])).mapM (List.mapM stoi)).map
        (·.filter (!·.isEmpty)) := by
    rw [List.mapM_map]
    rfl
  rw [string_get_integers, ← flatten_split_lines hdelims, mapM_flatten, hrows]
  cases ((string_split_lines text).map (string_split · ['\t', ' ', ','])).mapM (List.mapM stoi) with
  | error e => rfl
  | ok rows => exact congrArg Except.ok List.flatten_filter_not_isEmpty.symm

/-- **Grids and flat lists have the same fields**, and the integers can be read from both or from
neither. -/
theorem string_grids_flatten (text : Text) :
    (string_get_string_grid text).flatten = string_split text ['\t', '\r', '\n', ',', ' '] ∧
    (∀ row ∈ string_get_string_grid text, row ≠ []) ∧
    ((∃ vals, string_get_integers text = .ok vals) ↔
      ∃ grid, string_get_integer_grid text ['\t', ' ', ','] = .ok grid) ∧
    ∀ grid, string_get_integer_grid text ['\t', ' ', ','] = .ok grid →
      string_get_integers text = .ok grid.flatten := by
  have hdelims : ∀ c, ['\t', '\r', '\n', ',', ' '].contains c =
      (['\r', '\n'].contains c || ['\t', ',', ' '].contains c) := by
    intro c
    simp only [List.contains_cons, List.contains_nil, Bool.or_false]
    ac_rfl
  refine ⟨?_, ?_, ?_, ?_⟩
  · exact List.flatten_filter_not_isEmpty.trans (flatten_split_lines hdelims)
  · intro row hrow hnil
    have hkept := (List.mem_filter.mp hrow).2
    rw [hnil] at hkept
    cases hkept
  · rw [string_get_integers_eq]
    cases string_get_integer_grid text ['\t', ' ', ','] with
    | error e => exact iff_of_false nofun nofun
    | ok grid => exact iff_of_true ⟨_, rfl⟩ ⟨_, rfl⟩
  · intro grid hgrid
    rw [string_get_integers_eq, hgrid]
    rfl

end MUtils

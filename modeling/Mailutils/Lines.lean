import Mathlib.Data.List.DropRight

/-!
Texts as lines between separators. The lines of a text are `List.splitOn`, or
`getlines` where each line keeps its separator; the rules here take the first
line off, and do induction over the lines.
-/
namespace Mailutils.Lines

section
variable {α : Type*} [DecidableEq α] {sep : α}

theorem line_cases (sep : α) (text : List α) :
    sep ∉ text ∨ ∃ line rest, sep ∉ line ∧ text = line ++ sep :: rest := by
  by_cases there : sep ∈ text
  · obtain ⟨line, rest, split, first⟩ := List.eq_append_cons_of_mem there
    exact .inr ⟨line, rest, first, split⟩
  · exact .inl there

theorem line_induction (sep : α) {motive : List α → Prop} (last : ∀ line, sep ∉ line → motive line)
    (next : ∀ line rest, sep ∉ line → motive rest → motive (line ++ sep :: rest)) (text : List α) : motive text := by
  induction length : text.length using Nat.strong_induction_on generalizing text with
  | _ n ih =>
    rcases line_cases sep text with whole | ⟨line, rest, clean, rfl⟩
    · exact last text whole
    · refine next line rest clean (ih rest.length ?_ rest rfl)
      simp at length
      omega

theorem splitOn_last {line : List α} (clean : sep ∉ line) : line.splitOn sep = [line] :=
  List.splitOnP_eq_singleton fun a member => by
    rw [beq_eq_false_iff_ne]
    exact fun same => clean (same ▸ member)

theorem splitOn_next {line : List α} (clean : sep ∉ line) (rest : List α) :
    (line ++ sep :: rest).splitOn sep = line :: rest.splitOn sep :=
  List.splitOnP_append_cons_of_forall_mem (fun a member => by
    rw [beq_eq_false_iff_ne]
    exact fun same => clean (same ▸ member)) sep (by simp) rest

theorem splitOn_ne_nil (text : List α) : text.splitOn sep ≠ [] := by
  induction text using line_induction sep with
  | last line clean => simp [splitOn_last clean]
  | next line rest clean _ => simp [splitOn_next clean]

/-- The lines of a text, each with its separator; the last may be without. -/
def getlines (sep : α) : List α → List (List α)
  | [] => []
  | c :: text =>
    if c = sep then [c] :: getlines sep text
    else
      match getlines sep text with
      | [] => [[c]]
      | line :: rest => (c :: line) :: rest

@[simp] theorem getlines_nil : getlines sep ([] : List α) = [] := rfl

theorem getlines_next {line : List α} (clean : sep ∉ line) (rest : List α) :
    getlines sep (line ++ sep :: rest) = (line ++ [sep]) :: getlines sep rest := by
  induction line with
  | nil => simp [getlines]
  | cons c line ih =>
    obtain ⟨other, clean⟩ : ¬ sep = c ∧ sep ∉ line := by simpa using clean
    simp [getlines, Ne.symm other, ih clean]

theorem getlines_flatten (sep : α) (text : List α) : (getlines sep text).flatten = text := by
  induction text with
  | nil => rfl
  | cons c text ih =>
    unfold getlines
    split
    · simp [ih]
    · split
      · next none => simp [none] at ih; simp [ih]
      · next line rest split => simp [split] at ih; simp [ih]

theorem getlines_ne_nil {text line : List α} (member : line ∈ getlines sep text) : line ≠ [] := by
  induction text generalizing line with
  | nil => simp at member
  | cons c text ih =>
    unfold getlines at member
    split at member
    · rcases List.mem_cons.mp member with rfl | more
      · simp
      · exact ih more
    · split at member
      · rcases List.mem_singleton.mp member with rfl
        simp
      · next split =>
        rcases List.mem_cons.mp member with rfl | more
        · simp
        · exact ih (split ▸ List.mem_cons_of_mem _ more)

theorem getlines_last {line : List α} (clean : sep ∉ line) (some : line ≠ []) : getlines sep line = [line] := by
  induction line with
  | nil => exact absurd rfl some
  | cons c line ih =>
    obtain ⟨other, clean⟩ : ¬ sep = c ∧ sep ∉ line := by simpa using clean
    by_cases more : line = []
    · simp [getlines, more, Ne.symm other]
    · simp [getlines, Ne.symm other, ih clean more]

end

end Mailutils.Lines

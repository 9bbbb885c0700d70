import Mailutils.Characters
import Mathlib.Data.List.DropRight

/-!
IMAP mailbox patterns (`libmailutils/imapio/wildmatch.c`): what the recursive matcher finds,
and where it misses a name that the pattern takes.
-/
namespace Mailutils.WildMatch

@[simp] theorem percent_ne_star : PERCENT ≠ STAR := by decide
@[simp] theorem star_ne_percent : STAR ≠ PERCENT := by decide

/-- `WILD_FALSE`, `WILD_TRUE` and `WILD_ABORT` -/
inductive Wild where
  | WILD_FALSE
  | WILD_TRUE
  | WILD_ABORT
  deriving DecidableEq, Repr

open Wild

/-- The loop over the name after a `*`. -/
def star_loop (match_rest : List UInt8 → Wild) : List UInt8 → Wild
  | [] => WILD_ABORT
  | c :: name =>
    if match_rest (c :: name) ≠ WILD_FALSE then match_rest (c :: name) else star_loop match_rest name

/-- The loop over the name after a `%`, and the last attempt behind it. -/
def percent_loop (match_rest : List UInt8 → Wild) (delim : UInt8) : List UInt8 → Wild
  | [] => match_rest []
  | c :: name =>
    if c = delim then match_rest (c :: name)
    else if match_rest (c :: name) ≠ WILD_FALSE then match_rest (c :: name)
    else percent_loop match_rest delim name

/-- Whether two characters are taken for equal. -/
def same (icase : Bool) (p c : UInt8) : Bool := if icase then mu_toupper p = mu_toupper c else p = c

/-- `_wild_match`. A wildcard that follows an equal one is skipped by going on from it. -/
def wild_match (delim : UInt8) (icase : Bool) : List UInt8 → List UInt8 → Wild
  | [], name => if name = [] then WILD_TRUE else WILD_FALSE
  | p :: pat, name =>
    if p = STAR then
      if pat.head? = some STAR then wild_match delim icase pat name
      else if pat = [] then WILD_TRUE
      else star_loop (wild_match delim icase pat) name
    else if p = PERCENT then
      if pat.head? = some PERCENT then wild_match delim icase pat name
      -- `strchr` finds the terminating zero, too
      else if pat = [] then if delim = 0 ∨ delim ∈ name then WILD_FALSE else WILD_TRUE
      else percent_loop (wild_match delim icase pat) delim name
    else
      match name with
      | [] => WILD_ABORT
      | c :: name => if same icase p c then wild_match delim icase pat name else WILD_FALSE

/-- The name can be divided among the characters of the pattern. -/
inductive Takes (delim : UInt8) (icase : Bool) : List UInt8 → List UInt8 → Prop
  | nil : Takes delim icase [] []
  | star {pat rest : List UInt8} (taken : List UInt8) :
      Takes delim icase pat rest → Takes delim icase (STAR :: pat) (taken ++ rest)
  | percent {pat rest : List UInt8} (taken : List UInt8) :
      delim ∉ taken → Takes delim icase pat rest → Takes delim icase (PERCENT :: pat) (taken ++ rest)
  | char {p c : UInt8} {pat rest : List UInt8} :
      p ≠ STAR → p ≠ PERCENT → same icase p c → Takes delim icase pat rest → Takes delim icase (p :: pat) (c :: rest)

section
variable {delim : UInt8} {icase : Bool} {pat name : List UInt8}

theorem takes_nil_iff : Takes delim icase [] name ↔ name = [] := by
  constructor
  · intro h; cases h; rfl
  · rintro rfl; exact .nil

theorem takes_star_iff : Takes delim icase (STAR :: pat) name ↔ ∃ s, s <:+ name ∧ Takes delim icase pat s := by
  constructor
  · intro h
    cases h with
    | star taken rest => exact ⟨_, List.suffix_append _ _, rest⟩
    | char notStar => exact absurd rfl notStar
  · rintro ⟨s, ⟨taken, rfl⟩, h⟩
    exact .star taken h

theorem takes_percent_iff :
    Takes delim icase (PERCENT :: pat) name ↔ ∃ u s, name = u ++ s ∧ delim ∉ u ∧ Takes delim icase pat s := by
  constructor
  · intro h
    cases h with
    | percent taken free rest => exact ⟨_, _, rfl, free, rest⟩
    | char _ notPercent => exact absurd rfl notPercent
  · rintro ⟨u, s, rfl, free, h⟩
    exact .percent u free h

private theorem takes_char_iff {p : UInt8} (notStar : p ≠ STAR) (notPercent : p ≠ PERCENT) :
    Takes delim icase (p :: pat) name ↔ ∃ c s, name = c :: s ∧ same icase p c ∧ Takes delim icase pat s := by
  constructor
  · intro h
    cases h with
    | star => exact absurd rfl notStar
    | percent => exact absurd rfl notPercent
    | char _ _ eq rest => exact ⟨_, _, rfl, eq, rest⟩
  · rintro ⟨c, s, rfl, eq, h⟩
    exact .char notStar notPercent eq h

end

/-- An abort at a name holds for everything behind it as well. -/
def AbortsForAll (f : List UInt8 → Wild) : Prop :=
  ∀ name, f name = WILD_ABORT → ∀ s, s <:+ name → f s ≠ WILD_TRUE

section
variable {f : List UInt8 → Wild} {delim : UInt8}

theorem star_loop_found {name : List UInt8} (h : star_loop f name = WILD_TRUE) :
    ∃ s, s <:+ name ∧ s ≠ [] ∧ f s = WILD_TRUE := by
  induction name with
  | nil => simp [star_loop] at h
  | cons c name ih =>
    rw [star_loop] at h
    split_ifs at h with here
    · exact ⟨c :: name, List.suffix_rfl, by simp, h⟩
    · obtain ⟨s, behind, ne, eq⟩ := ih h
      exact ⟨s, behind.trans (List.suffix_cons c name), ne, eq⟩

theorem star_loop_missed (aborts : AbortsForAll f) {name : List UInt8} (h : star_loop f name ≠ WILD_TRUE) :
    ∀ s, s <:+ name → s ≠ [] → f s ≠ WILD_TRUE := by
  induction name with
  | nil =>
    intro s behind ne
    exact absurd (List.suffix_nil.mp behind) ne
  | cons c name ih =>
    intro s behind ne
    rw [star_loop] at h
    split_ifs at h with here
    · cases eq : f (c :: name) with
      | WILD_FALSE => exact absurd eq here
      | WILD_TRUE => exact absurd eq h
      | WILD_ABORT => exact aborts _ eq s behind
    · rcases List.suffix_cons_iff.mp behind with rfl | behind
      · rw [not_not.mp here]; simp
      · exact ih h s behind ne

theorem percent_loop_found {name : List UInt8} (h : percent_loop f delim name = WILD_TRUE) :
    ∃ u s, name = u ++ s ∧ delim ∉ u ∧ f s = WILD_TRUE := by
  induction name with
  | nil => exact ⟨[], [], rfl, by simp, h⟩
  | cons c name ih =>
    rw [percent_loop] at h
    split_ifs at h with stop here
    · exact ⟨[], c :: name, rfl, by simp, h⟩
    · exact ⟨[], c :: name, rfl, by simp, h⟩
    · obtain ⟨u, s, rfl, free, eq⟩ := ih h
      exact ⟨c :: u, s, rfl, by simp [free, Ne.symm stop], eq⟩

private theorem percent_loop_missed (aborts : AbortsForAll f) {name : List UInt8} (h : percent_loop f delim name ≠ WILD_TRUE) :
    ∀ u s, name = u ++ s → delim ∉ u → f s ≠ WILD_TRUE := by
  induction name with
  | nil =>
    intro u s eq free
    obtain ⟨rfl, rfl⟩ := List.append_eq_nil_iff.mp eq.symm
    exact h
  | cons c name ih =>
    intro u s eq free
    rw [percent_loop] at h
    cases u with
    | nil =>
      obtain rfl : c :: name = s := eq
      split_ifs at h with stop here
      · exact h
      · exact h
      · rw [not_not.mp here]; simp
    | cons d u =>
      obtain ⟨rfl, rfl⟩ : c = d ∧ name = u ++ s := by simpa using eq
      have notDelim : c ≠ delim := fun stop => free (by simp [stop])
      rw [if_neg notDelim] at h
      split_ifs at h with here
      · cases found : f (c :: (u ++ s)) with
        | WILD_FALSE => exact absurd found here
        | WILD_TRUE => exact absurd found h
        | WILD_ABORT => exact aborts _ found s ⟨c :: u, by simp⟩
      · exact ih h u s rfl (fun mem => free (by simp [mem]))

theorem percent_loop_aborts (aborts : AbortsForAll f) {name : List UInt8}
    (h : percent_loop f delim name = WILD_ABORT) : ∀ s, s <:+ name → f s ≠ WILD_TRUE := by
  induction name with
  | nil => exact aborts _ h
  | cons c name ih =>
    intro s behind
    rw [percent_loop] at h
    split_ifs at h with stop here
    · exact aborts _ h s behind
    · exact aborts _ h s behind
    · rcases List.suffix_cons_iff.mp behind with rfl | behind
      · rw [not_not.mp here]; simp
      · exact ih h s behind

end

section
variable (delim : UInt8) (icase : Bool)

/-- Pruning by `WILD_ABORT` loses nothing. -/
theorem wild_match_aborts (pat : List UInt8) : AbortsForAll (wild_match delim icase pat) := by
  induction pat with
  | nil =>
    intro name h
    rw [wild_match] at h
    split_ifs at h
  | cons p pat ih =>
    intro name h s behind
    rw [wild_match.eq_def] at h ⊢
    dsimp only at h ⊢
    split_ifs at h ⊢ with star again last percent again last
    · exact ih name h s behind
    · intro found
      obtain ⟨s', behind', ne, eq⟩ := star_loop_found found
      exact star_loop_missed ih (by rw [h]; simp) s' (behind'.trans behind) ne eq
    · exact ih name h s behind
    · intro found
      obtain ⟨u, s', rfl, -, eq⟩ := percent_loop_found found
      exact percent_loop_aborts ih h s' ((List.suffix_append u s').trans behind) eq
    · -- a literal character aborts at the end of the name, or behind a character it takes
      cases s with
      | nil => simp
      | cons d s =>
        cases name with
        | nil => simp at behind
        | cons c name =>
          simp only at h ⊢
          split_ifs at h with eq
          split_ifs with eq'
          · rcases List.suffix_cons_iff.mp behind with whole | behind
            · obtain ⟨-, rfl⟩ : d = c ∧ s = name := by simpa using whole
              rw [h]; simp
            · exact ih name h s ((List.suffix_cons d s).trans behind)
          · simp

/-- The matcher takes the name. -/
def Found (pat name : List UInt8) : Prop := wild_match delim icase pat name = WILD_TRUE

variable {delim icase} {pat name : List UInt8}

theorem found_nil_iff : Found delim icase [] name ↔ name = [] := by
  simp [Found, wild_match]

theorem found_char_iff {p : UInt8} (notStar : p ≠ STAR) (notPercent : p ≠ PERCENT) :
    Found delim icase (p :: pat) name ↔ ∃ c s, name = c :: s ∧ same icase p c ∧ Found delim icase pat s := by
  cases name with
  | nil => simp [Found, wild_match, notStar, notPercent]
  | cons c name =>
    by_cases eq : same icase p c
    · simp [Found, wild_match, notStar, notPercent, eq]
    · simp [Found, wild_match, notStar, notPercent, eq]

theorem found_star_iff : Found delim icase (STAR :: pat) name ↔
    (∀ p ∈ pat, p = STAR) ∨ ∃ s, s <:+ name ∧ s ≠ [] ∧ Found delim icase pat s := by
  induction pat generalizing name with
  | nil => simp [Found, wild_match]
  | cons q pat ih =>
    by_cases again : q = STAR
    · subst again
      have skip : Found delim icase (STAR :: STAR :: pat) name ↔ Found delim icase (STAR :: pat) name := by
        simp [Found, wild_match]
      rw [skip]
      constructor
      · intro found
        rcases ih.mp found with all | ⟨s, behind, ne, rest⟩
        · exact .inl (by simpa using all)
        · exact .inr ⟨s, behind, ne, ih.mpr (.inr ⟨s, List.suffix_rfl, ne, rest⟩)⟩
      · rintro (all | ⟨s, behind, ne, found⟩)
        · exact ih.mpr (.inl (by simpa using all))
        · rcases ih.mp found with all | ⟨s', behind', ne', rest⟩
          · exact ih.mpr (.inl all)
          · exact ih.mpr (.inr ⟨s', behind'.trans behind, ne', rest⟩)
    · have loop : Found delim icase (STAR :: q :: pat) name ↔
          star_loop (wild_match delim icase (q :: pat)) name = WILD_TRUE := by
        rw [Found, wild_match.eq_def]; simp [again]
      rw [loop]
      constructor
      · intro found
        exact .inr (star_loop_found found)
      · rintro (all | ⟨s, behind, ne, found⟩)
        · exact absurd (all q (by simp)) again
        · by_contra missed
          exact star_loop_missed (wild_match_aborts delim icase (q :: pat)) missed s behind ne found

theorem found_percents_iff (all : ∀ p ∈ pat, p = PERCENT) :
    Found delim icase (PERCENT :: pat) name ↔ delim ≠ 0 ∧ delim ∉ name := by
  induction pat with
  | nil => simp [Found, wild_match]
  | cons q pat ih =>
    obtain rfl := all q (by simp)
    have skip : Found delim icase (PERCENT :: PERCENT :: pat) name ↔ Found delim icase (PERCENT :: pat) name := by
      simp [Found, wild_match]
    rw [skip]
    exact ih (fun p mem => all p (by simp [mem]))

theorem found_percent_iff (more : ∃ p ∈ pat, p ≠ PERCENT) :
    Found delim icase (PERCENT :: pat) name ↔ ∃ u s, name = u ++ s ∧ delim ∉ u ∧ Found delim icase pat s := by
  induction pat generalizing name with
  | nil => simp at more
  | cons q pat ih =>
    by_cases again : q = PERCENT
    · subst again
      have skip : Found delim icase (PERCENT :: PERCENT :: pat) name ↔ Found delim icase (PERCENT :: pat) name := by
        simp [Found, wild_match]
      have more' : ∃ p ∈ pat, p ≠ PERCENT := by simpa using more
      rw [skip]
      constructor
      · intro found
        exact ⟨[], name, rfl, by simp, found⟩
      · rintro ⟨u, s, rfl, free, found⟩
        obtain ⟨u', s', rfl, free', rest⟩ := (ih more').mp found
        exact (ih more').mpr ⟨u ++ u', s', by simp, by simp [free, free'], rest⟩
    · have loop : Found delim icase (PERCENT :: q :: pat) name ↔
          percent_loop (wild_match delim icase (q :: pat)) delim name = WILD_TRUE := by
        rw [Found, wild_match.eq_def]; simp [again]
      rw [loop]
      constructor
      · exact percent_loop_found
      · rintro ⟨u, s, eq, free, found⟩
        by_contra missed
        exact percent_loop_missed (wild_match_aborts delim icase (q :: pat)) missed u s eq free found

end

def wildcard (p : UInt8) : Bool := p = STAR ∨ p = PERCENT

/-- A `*` comes before a `%`. -/
def StarThenPercent (pat : List UInt8) : Prop := [STAR, PERCENT].Sublist pat

/-- The pattern ends in a `%`. -/
def EndsInPercent (pat : List UInt8) : Prop := pat.getLast? = some PERCENT

section
variable {delim : UInt8} {icase : Bool} {t name : List UInt8}

theorem starThenPercent_star : StarThenPercent (STAR :: t) ↔ PERCENT ∈ t := by
  rw [StarThenPercent, List.cons_sublist_cons, List.singleton_sublist]

theorem starThenPercent_percent : StarThenPercent (PERCENT :: t) ↔ StarThenPercent t := by
  constructor
  · intro h
    cases h with
    | cons _ h => exact h
  · intro h
    exact h.cons PERCENT

theorem percent_mem_of_not_stars (wild : ∀ p ∈ t, wildcard p) (more : ¬ ∀ p ∈ t, p = STAR) : PERCENT ∈ t := by
  simp only [not_forall] at more
  obtain ⟨p, mem, notStar⟩ := more
  have := wild p mem
  simp only [wildcard, notStar, false_or, decide_eq_true_eq] at this
  rwa [← this]

theorem star_mem_of_not_percents (wild : ∀ p ∈ t, wildcard p) (more : ¬ ∀ p ∈ t, p = PERCENT) : STAR ∈ t := by
  simp only [not_forall] at more
  obtain ⟨p, mem, notPercent⟩ := more
  have := wild p mem
  simp only [wildcard, notPercent, or_false, decide_eq_true_eq] at this
  rwa [← this]

theorem takes_empty (wild : ∀ p ∈ t, wildcard p) : Takes delim icase t [] := by
  induction t with
  | nil => exact .nil
  | cons p t ih =>
    have rest := ih fun q mem => wild q (by simp [mem])
    have here := wild p (by simp)
    simp only [wildcard, decide_eq_true_eq] at here
    rcases here with rfl | rfl
    · exact .star [] rest
    · exact .percent [] (by simp) rest

theorem takes_of_star (wild : ∀ p ∈ t, wildcard p) (star : STAR ∈ t) (name : List UInt8) :
    Takes delim icase t name := by
  induction t with
  | nil => simp at star
  | cons p t ih =>
    have wild' : ∀ q ∈ t, wildcard q := fun q mem => wild q (by simp [mem])
    by_cases eq : p = STAR
    · subst eq
      rw [← List.append_nil name]
      exact .star name (takes_empty wild')
    · have here := wild p (by simp)
      simp only [wildcard, eq, false_or, decide_eq_true_eq] at here
      subst here
      exact .percent [] (by simp) (ih wild' (by simpa using star))

theorem takes_percents (all : ∀ p ∈ t, p = PERCENT) (name : List UInt8) :
    Takes delim icase (PERCENT :: t) name ↔ delim ∉ name := by
  induction t generalizing name with
  | nil =>
    rw [takes_percent_iff]
    simp [takes_nil_iff]
  | cons q t ih =>
    obtain rfl := all q (by simp)
    have all' : ∀ p ∈ t, p = PERCENT := fun p mem => all p (by simp [mem])
    rw [takes_percent_iff]
    constructor
    · rintro ⟨u, s, rfl, free, rest⟩
      have := (ih all' s).mp rest
      simp [free, this]
    · intro free
      exact ⟨[], name, rfl, by simp, (ih all' name).mpr free⟩

theorem endsInPercent_cons {p : UInt8} (ne : t ≠ []) : EndsInPercent (p :: t) ↔ EndsInPercent t := by
  rw [EndsInPercent, EndsInPercent, List.getLast?_cons_of_ne_nil ne]

theorem percents_endsInPercent (all : ∀ p ∈ t, p = PERCENT) (ne : t ≠ []) : EndsInPercent t := by
  rw [EndsInPercent, List.getLast?_eq_some_getLast ne, all _ (List.getLast_mem ne)]

theorem stars_not_endsInPercent (all : ∀ p ∈ t, p = STAR) : ¬ EndsInPercent t := by
  intro ends
  exact percent_ne_star (all PERCENT (List.mem_of_getLast? ends))

theorem starThenPercent_of_mem (star : STAR ∈ t) (ends : EndsInPercent t) : StarThenPercent t := by
  obtain ⟨u, v, rfl⟩ := List.append_of_mem star
  have ne : v ≠ [] := by
    rintro rfl
    simp [EndsInPercent] at ends
  have last : PERCENT ∈ v := by
    apply List.mem_of_getLast?
    rwa [EndsInPercent, List.getLast?_append_of_ne_nil u (by simp), List.getLast?_cons_of_ne_nil ne] at ends
  exact (starThenPercent_star.mpr last).trans (List.sublist_append_right u _)

theorem takes_of_free (wild : ∀ p ∈ t, wildcard p) (ne : t ≠ []) (free : delim ∉ name) : Takes delim icase t name := by
  by_cases star : STAR ∈ t
  · exact takes_of_star wild star name
  · obtain ⟨p, t, rfl⟩ := List.exists_cons_of_ne_nil ne
    have all := not_imp_comm.mp (star_mem_of_not_percents wild) star
    obtain rfl := all p (by simp)
    exact (takes_percents (fun q mem => all q (by simp [mem])) name).mpr free

/-- What the matcher asks for, besides that a run of wildcards takes the name. -/
structure Reached (delim : UInt8) (t name : List UInt8) : Prop where
  delim_ne : EndsInPercent t → delim ≠ 0
  rest_ne : StarThenPercent t → name ≠ []
  last_ne : StarThenPercent t → EndsInPercent t → name.getLast? ≠ some delim

theorem getLast?_suffix {s : List UInt8} (behind : s <:+ name) (ne : s ≠ []) : name.getLast? = s.getLast? := by
  obtain ⟨u, rfl⟩ := behind
  exact List.getLast?_append_of_ne_nil u ne

theorem found_stars (all : ∀ p ∈ t, p = STAR) :
    Found delim icase (STAR :: t) name ↔ Takes delim icase (STAR :: t) name ∧ Reached delim (STAR :: t) name := by
  have noPercent : PERCENT ∉ t := fun mem => percent_ne_star (all _ mem)
  have notEnds : ¬ EndsInPercent (STAR :: t) := stars_not_endsInPercent (by simpa using all)
  have takes : Takes delim icase (STAR :: t) name :=
    takes_of_star (by simpa [wildcard] using fun p mem => Or.inl (all p mem)) (by simp) name
  have reached : Reached delim (STAR :: t) name :=
    ⟨fun ends => absurd ends notEnds, fun late => absurd (starThenPercent_star.mp late) noPercent,
      fun _ ends => absurd ends notEnds⟩
  exact ⟨fun _ => ⟨takes, reached⟩, fun _ => found_star_iff.mpr (.inl all)⟩

/-- After a star with a percent behind it, the matcher needs a last character for the percent. -/
theorem found_star_wildcards (wild : ∀ p ∈ t, wildcard p) (more : ¬ ∀ p ∈ t, p = STAR)
    (ih : ∀ name, Found delim icase t name ↔ Takes delim icase t name ∧ Reached delim t name) :
    Found delim icase (STAR :: t) name ↔ Takes delim icase (STAR :: t) name ∧ Reached delim (STAR :: t) name := by
  have percent : PERCENT ∈ t := percent_mem_of_not_stars wild more
  have late : StarThenPercent (STAR :: t) := starThenPercent_star.mpr percent
  have ne : t ≠ [] := List.ne_nil_of_mem percent
  have ends : EndsInPercent (STAR :: t) ↔ EndsInPercent t := endsInPercent_cons ne
  rw [found_star_iff]
  simp only [more, false_or, ih]
  constructor
  · rintro ⟨s, behind, s_ne, takes, reached⟩
    refine ⟨takes_star_iff.mpr ⟨s, behind, takes⟩, fun h => reached.delim_ne (ends.mp h), fun _ => ?_, fun _ h => ?_⟩
    · rintro rfl
      exact s_ne (List.suffix_nil.mp behind)
    · rw [getLast?_suffix behind s_ne]
      by_cases star : STAR ∈ t
      · exact reached.last_ne (starThenPercent_of_mem star (ends.mp h)) (ends.mp h)
      · obtain ⟨p, t, rfl⟩ := List.exists_cons_of_ne_nil ne
        have all := not_imp_comm.mp (star_mem_of_not_percents wild) star
        obtain rfl := all p (by simp)
        have free := (takes_percents (fun q mem => all q (by simp [mem])) s).mp takes
        exact fun last => free (List.mem_of_getLast? last)
  · rintro ⟨-, reached⟩
    have name_ne := reached.rest_ne late
    have last := List.getLast?_eq_some_getLast name_ne
    refine ⟨[name.getLast name_ne], ⟨name.dropLast, List.dropLast_append_getLast name_ne⟩, by simp, ?_,
      fun h => reached.delim_ne (ends.mpr h), by simp, fun _ h => ?_⟩
    · by_cases star : STAR ∈ t
      · exact takes_of_star wild star _
      · have all := not_imp_comm.mp (star_mem_of_not_percents wild) star
        have last_ne := reached.last_ne late (ends.mpr (percents_endsInPercent all ne))
        apply takes_of_free wild ne
        intro mem
        rw [last, ← List.mem_singleton.mp mem] at last_ne
        exact last_ne rfl
    · have last_ne := reached.last_ne late (ends.mpr h)
      rwa [last] at last_ne

theorem found_percent_wildcards (wild : ∀ p ∈ t, wildcard p) (more : ¬ ∀ p ∈ t, p = PERCENT)
    (ih : ∀ name, Found delim icase t name ↔ Takes delim icase t name ∧ Reached delim t name) :
    Found delim icase (PERCENT :: t) name ↔
      Takes delim icase (PERCENT :: t) name ∧ Reached delim (PERCENT :: t) name := by
  have star : STAR ∈ t := star_mem_of_not_percents wild more
  have ends : EndsInPercent (PERCENT :: t) ↔ EndsInPercent t := endsInPercent_cons (List.ne_nil_of_mem star)
  rw [found_percent_iff (by simpa using more)]
  simp only [ih]
  constructor
  · rintro ⟨u, s, rfl, free, takes, reached⟩
    refine ⟨.percent u free takes, fun h => reached.delim_ne (ends.mp h), fun late => ?_, fun late h => ?_⟩
    · have := reached.rest_ne (starThenPercent_percent.mp late)
      simp [this]
    · have late' := starThenPercent_percent.mp late
      rw [List.getLast?_append_of_ne_nil u (reached.rest_ne late')]
      exact reached.last_ne late' (ends.mp h)
  · rintro ⟨-, reached⟩
    refine ⟨[], name, rfl, by simp, takes_of_star wild star name, fun h => reached.delim_ne (ends.mpr h),
      fun late => ?_, fun late h => ?_⟩
    · exact reached.rest_ne (starThenPercent_percent.mpr late)
    · exact reached.last_ne (starThenPercent_percent.mpr late) (ends.mpr h)

theorem found_wildcards_iff (wild : ∀ p ∈ t, wildcard p) :
    Found delim icase t name ↔ Takes delim icase t name ∧ Reached delim t name := by
  induction t generalizing name with
  | nil =>
    have reached : Reached delim [] name := by constructor <;> simp [EndsInPercent, StarThenPercent]
    simp [found_nil_iff, takes_nil_iff, reached]
  | cons p t ih =>
    have wild' : ∀ q ∈ t, wildcard q := fun q mem => wild q (by simp [mem])
    have here := wild p (by simp)
    simp only [wildcard, decide_eq_true_eq] at here
    rcases here with rfl | rfl
    · by_cases all : ∀ q ∈ t, q = STAR
      · exact found_stars all
      · exact found_star_wildcards wild' all fun name => ih wild'
    · by_cases all : ∀ q ∈ t, q = PERCENT
      · rw [found_percents_iff all, takes_percents all]
        have ends : EndsInPercent (PERCENT :: t) := percents_endsInPercent (by simpa using all) (by simp)
        have notLate : ¬ StarThenPercent (PERCENT :: t) := by
          intro late
          have star : STAR ∈ t := by simpa using late.subset (show STAR ∈ [STAR, PERCENT] by simp)
          exact star_ne_percent (all _ star)
        constructor
        · rintro ⟨delim_ne, free⟩
          exact ⟨free, fun _ => delim_ne, fun late => absurd late notLate, fun late => absurd late notLate⟩
        · rintro ⟨free, reached⟩
          exact ⟨reached.delim_ne ends, free⟩
      · exact found_percent_wildcards wild' all fun name => ih wild'

end

section
variable {delim : UInt8} {icase : Bool} {q t name : List UInt8}

theorem takes_append_iff :
    Takes delim icase (q ++ t) name ↔ ∃ u s, name = u ++ s ∧ Takes delim icase q u ∧ Takes delim icase t s := by
  constructor
  · intro h
    induction q generalizing name with
    | nil => exact ⟨[], name, rfl, .nil, h⟩
    | cons p q ih =>
      cases h with
      | star taken rest =>
        obtain ⟨u, s, rfl, takes, tail⟩ := ih rest
        exact ⟨taken ++ u, s, by simp, .star taken takes, tail⟩
      | percent taken free rest =>
        obtain ⟨u, s, rfl, takes, tail⟩ := ih rest
        exact ⟨taken ++ u, s, by simp, .percent taken free takes, tail⟩
      | char notStar notPercent eq rest =>
        obtain ⟨u, s, rfl, takes, tail⟩ := ih rest
        exact ⟨_ :: u, s, rfl, .char notStar notPercent eq takes, tail⟩
  · rintro ⟨u, s, rfl, takes, tail⟩
    induction takes with
    | nil => exact tail
    | star taken _ ih => rw [List.append_assoc]; exact .star taken ih
    | percent taken free _ ih => rw [List.append_assoc]; exact .percent taken free ih
    | char notStar notPercent eq _ ih => exact .char notStar notPercent eq ih

theorem takes_ne_nil {p : UInt8} (mem : p ∈ q) (literal : wildcard p = false) (h : Takes delim icase q name) :
    name ≠ [] := by
  induction h with
  | nil => simp at mem
  | star taken _ ih =>
    have mem' := (List.mem_cons.mp mem).resolve_left (by rintro rfl; simp [wildcard] at literal)
    simp [ih mem']
  | percent taken _ _ ih =>
    have mem' := (List.mem_cons.mp mem).resolve_left (by rintro rfl; simp [wildcard] at literal)
    simp [ih mem']
  | char => simp

/-- Up to its last literal character the matcher finds all that the pattern takes. -/
theorem found_append_iff (literal : ∀ p, q.getLast? = some p → wildcard p = false) :
    Found delim icase (q ++ t) name ↔ ∃ u s, name = u ++ s ∧ Takes delim icase q u ∧ Found delim icase t s := by
  induction q generalizing name with
  | nil => simp [takes_nil_iff]
  | cons p q ih =>
    have literal' : ∀ r, q.getLast? = some r → wildcard r = false := by
      intro r last
      have ne : q ≠ [] := by rintro rfl; simp at last
      exact literal r (by rw [List.getLast?_cons_of_ne_nil ne, last])
    -- a wildcard is not the last of these characters, so that a literal one follows it
    have later (wild : wildcard p) : ∃ r ∈ q, wildcard r = false := by
      have ne : q ≠ [] := by rintro rfl; simp [wild] at literal
      exact ⟨q.getLast ne, List.getLast_mem ne, literal' _ (List.getLast?_eq_some_getLast ne)⟩
    by_cases star : p = STAR
    · subst star
      obtain ⟨r, mem, notWild⟩ := later (by simp [wildcard])
      have notStars : ¬ ∀ x ∈ q ++ t, x = STAR := fun all => by
        simp [all r (by simp [mem]), wildcard] at notWild
      rw [List.cons_append, found_star_iff]
      simp only [notStars, false_or, ih literal', takes_star_iff]
      constructor
      · rintro ⟨_, ⟨taken, rfl⟩, -, u, s, rfl, takes, found⟩
        exact ⟨taken ++ u, s, by simp, ⟨u, List.suffix_append _ _, takes⟩, found⟩
      · rintro ⟨_, s, rfl, ⟨u, ⟨taken, rfl⟩, takes⟩, found⟩
        have ne := takes_ne_nil mem notWild takes
        exact ⟨u ++ s, ⟨taken, by simp⟩, by simp [ne], u, s, rfl, takes, found⟩
    · by_cases percent : p = PERCENT
      · subst percent
        obtain ⟨r, mem, notWild⟩ := later (by simp [wildcard])
        have notPercent : r ≠ PERCENT := by rintro rfl; simp [wildcard] at notWild
        rw [List.cons_append, found_percent_iff ⟨r, by simp [mem], notPercent⟩]
        simp only [ih literal', takes_percent_iff]
        constructor
        · rintro ⟨taken, _, rfl, free, u, s, rfl, takes, found⟩
          exact ⟨taken ++ u, s, by simp, ⟨taken, u, rfl, free, takes⟩, found⟩
        · rintro ⟨_, s, rfl, ⟨taken, u, rfl, free, takes⟩, found⟩
          exact ⟨taken, u ++ s, by simp, free, u, s, rfl, takes, found⟩
      · rw [List.cons_append, found_char_iff star percent]
        simp only [ih literal', takes_char_iff star percent]
        constructor
        · rintro ⟨c, _, rfl, eq, u, s, rfl, takes, found⟩
          exact ⟨c :: u, s, rfl, ⟨c, u, rfl, eq, takes⟩, found⟩
        · rintro ⟨_, s, rfl, ⟨c, u, rfl, eq, takes⟩, found⟩
          exact ⟨c, u ++ s, rfl, eq, u, s, rfl, takes, found⟩

theorem rdropWhile_literal (pat : List UInt8) (p : UInt8) (last : (pat.rdropWhile wildcard).getLast? = some p) :
    wildcard p = false := by
  have ne : pat.rdropWhile wildcard ≠ [] := by
    intro nil
    simp [nil] at last
  have literal := List.rdropWhile_last_not wildcard pat ne
  rw [List.getLast?_eq_some_getLast ne] at last
  rw [Option.some.inj last] at literal
  simpa using literal

theorem endsInPercent_rtakeWhile (pat : List UInt8) : EndsInPercent (pat.rtakeWhile wildcard) ↔ EndsInPercent pat := by
  rcases List.eq_nil_or_concat' pat with rfl | ⟨l, x, rfl⟩
  · simp
  · by_cases wild : wildcard x
    · simp [EndsInPercent, List.rtakeWhile_concat_pos wildcard l x wild]
    · have ne : x ≠ PERCENT := by rintro rfl; simp [wildcard] at wild
      simp [EndsInPercent, List.rtakeWhile_concat_neg wildcard l x wild, ne]

/-- What the matcher finds, in terms of the pattern: the wildcards at its end are where it may miss a name. -/
theorem found_iff : Found delim icase t name ↔ Takes delim icase t name ∧
    (EndsInPercent t → delim ≠ 0) ∧
    (StarThenPercent (t.rtakeWhile wildcard) →
      (∃ u s, name = u ++ s ∧ s ≠ [] ∧ Takes delim icase (t.rdropWhile wildcard) u) ∧
      (EndsInPercent t → name.getLast? ≠ some delim)) := by
  have wild : ∀ p ∈ t.rtakeWhile wildcard, wildcard p := fun p mem => List.mem_rtakeWhile_imp mem
  have split : t.rdropWhile wildcard ++ t.rtakeWhile wildcard = t := List.rdropWhile_append_rtakeWhile
  have found : Found delim icase t name ↔ ∃ u s, name = u ++ s ∧ Takes delim icase (t.rdropWhile wildcard) u ∧
      Takes delim icase (t.rtakeWhile wildcard) s ∧ Reached delim (t.rtakeWhile wildcard) s := by
    conv_lhs => rw [← split]
    simp only [found_append_iff (rdropWhile_literal t), found_wildcards_iff wild]
  have takes : Takes delim icase t name ↔ ∃ u s, name = u ++ s ∧ Takes delim icase (t.rdropWhile wildcard) u ∧
      Takes delim icase (t.rtakeWhile wildcard) s := by
    conv_lhs => rw [← split]
    exact takes_append_iff
  rw [found, takes, ← endsInPercent_rtakeWhile t]
  constructor
  · rintro ⟨u, s, rfl, lead, trail, reached⟩
    refine ⟨⟨u, s, rfl, lead, trail⟩, reached.delim_ne, fun late => ⟨⟨u, s, rfl, reached.rest_ne late, lead⟩, ?_⟩⟩
    rw [List.getLast?_append_of_ne_nil u (reached.rest_ne late)]
    exact reached.last_ne late
  · rintro ⟨⟨u, s, rfl, lead, trail⟩, delim_ne, missed⟩
    by_cases late : StarThenPercent (t.rtakeWhile wildcard)
    · -- the star at the end of the pattern takes whatever is left
      obtain ⟨⟨u', s', eq, ne, lead'⟩, last_ne⟩ := missed late
      have star : STAR ∈ t.rtakeWhile wildcard := late.subset (by simp)
      refine ⟨u', s', eq, lead', takes_of_star wild star s', delim_ne, fun _ => ne, fun _ => ?_⟩
      rwa [eq, List.getLast?_append_of_ne_nil u' ne] at last_ne
    · exact ⟨u, s, rfl, lead, trail, delim_ne, fun h => absurd h late, fun h => absurd h late⟩

end

/-- The matcher decides the pattern unless the pattern takes the name and ends in wildcards that it does not
    give the name to: a `%` when there is no delimiter, or a `%` after a `*` with nothing of the name left to them. -/
theorem wild_match_iff (delim : UInt8) (icase : Bool) (pat name : List UInt8) :
    (wild_match delim icase pat name = WILD_TRUE ↔ Takes delim icase pat name) ↔
      (Takes delim icase pat name →
        (EndsInPercent pat → delim ≠ 0) ∧
        (StarThenPercent (pat.rtakeWhile wildcard) →
          (∃ u s, name = u ++ s ∧ s ≠ [] ∧ Takes delim icase (pat.rdropWhile wildcard) u) ∧
          (EndsInPercent pat → name.getLast? ≠ some delim))) := by
  have found : wild_match delim icase pat name = WILD_TRUE ↔ _ := found_iff
  rw [found]
  constructor
  · intro h takes
    exact (h.mpr takes).2
  · intro h
    exact ⟨fun found => found.1, fun takes => ⟨takes, h takes⟩⟩

/-- `*%` takes the empty name, and `a/` where `/` is the delimiter; the matcher takes neither. -/
theorem star_percent_missed :
    wild_match 47 false [STAR, PERCENT] [] = WILD_ABORT ∧ Takes 47 false [STAR, PERCENT] [] ∧
      wild_match 47 false [STAR, PERCENT] [97, 47] = WILD_ABORT ∧ Takes 47 false [STAR, PERCENT] [97, 47] ∧
      wild_match 0 false [PERCENT] [97] = WILD_FALSE ∧ Takes 0 false [PERCENT] [97] := by
  refine ⟨by decide, takes_empty (by simp [wildcard]), by decide, takes_of_star (by simp [wildcard]) (by simp) _,
    by decide, takes_of_free (by simp [wildcard]) (by simp) (by simp)⟩

end Mailutils.WildMatch

import Mathlib.Data.List.Basic

/-!
Machines that read a word symbol by symbol and write a word at each symbol, and
repeated steps of any machine. A decoder keeps pace with an encoder when, after
every symbol, what it has written and what the encoder still holds make up the
symbols read (`feed_paced`). A loop that may stop early reads a prefix of its
input as the machine does (`Ran`). An invariant of one step is one of any number of
steps (`foldl_keeps`), and a measure that some steps lower and no step raises
bounds how many of these steps there can be before a goal (`foldl_reaches`).
-/
namespace Mailutils.Transducer

section Feed
variable {σ τ α β : Type*}

/-- The state reached and the word written when a word is read symbol by symbol. -/
def feed (step : σ → α → σ × List β) : σ → List α → σ × List β
  | s, [] => (s, [])
  | s, a :: rest => ((feed step (step s a).1 rest).1, (step s a).2 ++ (feed step (step s a).1 rest).2)

@[simp] theorem feed_nil (step : σ → α → σ × List β) (s : σ) : feed step s [] = (s, []) := rfl

theorem feed_cons (step : σ → α → σ × List β) (s : σ) (a : α) (rest : List α) :
    feed step s (a :: rest) =
      ((feed step (step s a).1 rest).1, (step s a).2 ++ (feed step (step s a).1 rest).2) := rfl

theorem feed_append (step : σ → α → σ × List β) (s : σ) (left right : List α) :
    feed step s (left ++ right) =
      ((feed step (feed step s left).1 right).1,
        (feed step s left).2 ++ (feed step (feed step s left).1 right).2) := by
  induction left generalizing s with
  | nil => simp
  | cons a rest ih => simp [feed_cons, ih]

theorem feed_concat (step : σ → α → σ × List β) (s : σ) (word : List α) (a : α) :
    feed step s (word ++ [a]) =
      ((step (feed step s word).1 a).1, (feed step s word).2 ++ (step (feed step s word).1 a).2) := by
  simp [feed_append, feed_cons]

/-- After a word is encoded and what was written is decoded, the decoder has
    written the word less what the encoder holds, and the relation of their
    states still holds. -/
theorem feed_paced (enc : σ → α → σ × List β) (dec : τ → β → τ × List α) (rel : σ → τ → Prop)
    (held : σ → List α)
    (paced : ∀ s t a, rel s t → rel (enc s a).1 (feed dec t (enc s a).2).1 ∧
      held s ++ [a] = (feed dec t (enc s a).2).2 ++ held (enc s a).1)
    (word : List α) (s : σ) (t : τ) (start : rel s t) :
    rel (feed enc s word).1 (feed dec t (feed enc s word).2).1 ∧
      held s ++ word = (feed dec t (feed enc s word).2).2 ++ held (feed enc s word).1 := by
  induction word generalizing s t with
  | nil => simpa using start
  | cons a rest ih =>
    obtain ⟨related, covered⟩ := paced s t a start
    obtain ⟨relatedRest, coveredRest⟩ := ih _ _ related
    refine ⟨by simpa [feed_cons, feed_append] using relatedRest, ?_⟩
    calc held s ++ a :: rest = (held s ++ [a]) ++ rest := by simp
      _ = (feed dec t (enc s a).2).2 ++ (held (enc s a).1 ++ rest) := by rw [covered, List.append_assoc]
      _ = _ := by rw [coveredRest]; simp [feed_cons, feed_append]

/-- A loop over `input` that had written `output` stopped after `k` symbols, in
    the state `s'` with `output'` written: it reads as the machine does, and
    stops before the end of its input only where `stop` allows it. -/
structure Ran (step : σ → α → σ × List β) (stop : σ → List β → Prop) (s : σ) (input : List α) (output : List β)
    (s' : σ) (k : Nat) (output' : List β) : Prop where
  bound : k ≤ input.length
  state : s' = (feed step s (input.take k)).1
  written : output' = output ++ (feed step s (input.take k)).2
  early : k < input.length → stop s' output'

namespace Ran
variable {step : σ → α → σ × List β} {stop : σ → List β → Prop} {s s' : σ} {a : α} {input : List α} {k : Nat}
  {output output' : List β}

theorem nil : Ran step stop s [] output s 0 output := ⟨Nat.le_refl 0, rfl, by simp, by simp⟩

theorem here (stopped : stop s output) : Ran step stop s input output s 0 output :=
  ⟨Nat.zero_le _, by simp, by simp, fun _ => stopped⟩

theorem cons (rest : Ran step stop (step s a).1 input (output ++ (step s a).2) s' k output') :
    Ran step stop s (a :: input) output s' (k + 1) output' := by
  refine ⟨by simpa using rest.bound, by simpa [feed_cons] using rest.state, ?_, fun less => rest.early (by simpa using less)⟩
  simpa [feed_cons] using rest.written

end Ran

/-- A loop that in each round stops, with `stop` true, or goes on as the machine does. -/
theorem ran_of_loop {ρ : Type*} (step : σ → α → σ × List β) (stop : σ → List β → Prop)
    (loop : σ → List α → Nat → List β → ρ) (result : σ → Nat → List β → ρ) (inv : Nat → List β → Prop)
    (ended : ∀ s i o, loop s [] i o = result s i o)
    (round : ∀ s a rest i o, inv i o → stop s o ∧ loop s (a :: rest) i o = result s i o ∨
      inv (i + 1) (o ++ (step s a).2) ∧
        loop s (a :: rest) i o = loop (step s a).1 rest (i + 1) (o ++ (step s a).2))
    (input : List α) : ∀ (s : σ) (i : Nat) (o : List β), inv i o →
    ∃ s' k o', loop s input i o = result s' (i + k) o' ∧ inv (i + k) o' ∧ Ran step stop s input o s' k o' := by
  induction input with
  | nil => exact fun s i o holds => ⟨s, 0, o, ended s i o, holds, Ran.nil⟩
  | cons a rest ih =>
    intro s i o holds
    rcases round s a rest i o holds with ⟨stopped, here⟩ | ⟨holds', onward⟩
    · exact ⟨s, 0, o, here, holds, Ran.here stopped⟩
    · obtain ⟨s', k, o', after, kept, ran⟩ := ih (step s a).1 (i + 1) (o ++ (step s a).2) holds'
      rw [Nat.add_right_comm, Nat.add_assoc] at after kept
      exact ⟨s', k + 1, o', onward.trans after, kept, ran.cons⟩

end Feed

section Steps
variable {S A : Type*} (step : S → A → S)

/-- What every allowed step keeps holds after any number of them. -/
theorem foldl_keeps (inv : S → Prop) (allowed : A → Prop) (keeps : ∀ s a, inv s → allowed a → inv (step s a))
    (as : List A) (all : ∀ a ∈ as, allowed a) (s : S) (start : inv s) : inv (as.foldl step s) := by
  induction as generalizing s with
  | nil => exact start
  | cons a rest ih =>
    exact ih (fun b member => all b (List.mem_cons_of_mem a member)) _ (keeps s a start (all a List.mem_cons_self))

/-- When the steps that count lower a measure until the goal is reached, and
    no step raises it, more of them than the measure reach the goal. -/
theorem foldl_reaches (inv goal : S → Prop) (allowed : A → Prop) (counts : A → Bool) (measure : S → Nat)
    (keeps : ∀ s a, inv s → allowed a → inv (step s a))
    (stays : ∀ s a, inv s → allowed a → goal s → goal (step s a))
    (lowers : ∀ s a, inv s → allowed a → ¬ goal (step s a) → counts a = true → measure (step s a) < measure s)
    (settles : ∀ s a, inv s → allowed a → ¬ goal (step s a) → measure (step s a) ≤ measure s)
    (as : List A) (all : ∀ a ∈ as, allowed a) (s : S) (start : inv s)
    (enough : measure s < as.countP counts) : goal (as.foldl step s) := by
  induction as generalizing s with
  | nil => simp at enough
  | cons a rest ih =>
    have here : allowed a := all a List.mem_cons_self
    have later : ∀ b ∈ rest, allowed b := fun b member => all b (List.mem_cons_of_mem a member)
    by_cases reached : goal (step s a)
    · exact (foldl_keeps step (fun s => inv s ∧ goal s) allowed
        (fun s b both ok => ⟨keeps s b both.1 ok, stays s b both.1 ok both.2⟩) rest later _
        ⟨keeps s a start here, reached⟩).2
    · refine ih later _ (keeps s a start here) ?_
      have settled := settles s a start here reached
      by_cases counted : counts a = true
      · have lowered := lowers s a start here reached counted
        rw [List.countP_cons_of_pos counted] at enough
        omega
      · rw [List.countP_cons_of_neg counted] at enough
        omega

end Steps

end Mailutils.Transducer

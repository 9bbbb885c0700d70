import Mailutils.FilterRuns
import Mathlib.Data.List.GetD
import Mathlib.Data.List.Induction
import Mathlib.Data.List.Infix

/-!
The htmlent filter (`libmailutils/filter/htmlent.c`). Both directions write what they hold only while there is
input: a text whose last byte is an entity loses it (`htmlent_round_trip_iff`). The decoder compares
each byte with the entry it has come to, not with what it has read: `&at` is taken for `&gt`, and nothing else goes
wrong (`htmlent_decodes_iff`).
-/
namespace Mailutils.Htmlent
open Mailutils.Transducer Mailutils.Filter

/-- `struct transcode_map`; `len` is the length of `ent`. -/
structure TranscodeMap where
  ent : List UInt8
  ch : UInt8
  deriving DecidableEq, Repr

/-- The entities `&amp;`, `&gt;` and `&lt;`. -/
def transcode_map : List TranscodeMap :=
  [⟨[38, 97, 109, 112, 59], 38⟩, ⟨[38, 103, 116, 59], 62⟩, ⟨[38, 108, 116, 59], 60⟩]

example : transcode_map = [⟨ascii "&amp;", AMPERSAND⟩, ⟨ascii "&gt;", 62⟩, ⟨ascii "&lt;", 60⟩] := by decide +kernel

def ch2ent (c : UInt8) : Option TranscodeMap := transcode_map.find? (·.ch = c)

/-- The loop of `_htmlent_encoder`. The state is what is still to be written of an entity, which the source keeps
    backwards in `buf`. -/
def encode : Machine (List UInt8) where
  step
    | b :: held, _ => (held, false, some b)
    | [], c =>
      match ch2ent c with
      | some p => (p.ent, true, none)
      | none => ([], true, some c)
  rank := List.length
  reads := by
    rintro (_ | ⟨b, held⟩) c unread
    · simp only at unread
      split at unread <;> cases unread
    · simp

def _htmlent_encoder : Xcode (List UInt8) := fun held cmd input osize =>
  match cmd with
  | .init => ⟨.ok, [], input.length, osize, [], false⟩
  | .done => ⟨.ok, held, input.length, osize, [], false⟩
  | _ =>
    let (held, rest, output) := encode.run held input osize []
    ⟨.ok, held, input.length - rest.length, output.length, output, false⟩

/-- `struct htmlent_decode_state`, by its phase. The pointer `map` is an index; in the first phase it is at the
    beginning of the table and `idx` is 0. -/
inductive DecodeState
  | init
  | map (map idx : Nat)
  | rollback (map idx pos : Nat) (within : pos < idx)
  | finish (map : Nat)
  deriving DecidableEq, Repr

/-- `transcode_map[map].ent[idx]` -/
def entChar (map idx : Nat) : UInt8 := ((transcode_map[map]?.map TranscodeMap.ent).getD []).getD idx 0

/-- The loop of `nextchar` over the entries of the table. -/
def advance (map idx : Nat) (c : UInt8) : Nat :=
  map + ((transcode_map.drop map).takeWhile fun e => schar (e.ent.getD idx 0) < schar c).length

/-- The byte fits the entry. -/
def matched (map idx : Nat) : DecodeState :=
  if idx + 1 = ((transcode_map[map]?.map TranscodeMap.ent).getD []).length then .finish map else .map map (idx + 1)

def nextchar (map idx : Nat) (c : UInt8) : DecodeState :=
  if c = entChar map idx then matched map idx
  else if transcode_map.length ≤ advance map idx c ∨ c ≠ entChar (advance map idx c) idx then
    if begun : idx ≠ 0 then .rollback map idx 0 (Nat.pos_of_ne_zero begun) else .init
  else matched (advance map idx c) idx

/-- A round of the loop of `_htmlent_decoder`. -/
def decodeRound : DecodeState → UInt8 → DecodeState × Bool × Option UInt8
  | .init, c =>
    match nextchar 0 0 c with
    | .init => (.init, true, some c)
    | s => (s, true, none)
  | .map map idx, c =>
    match nextchar map idx c with
    | .map map idx => (.map map idx, true, none)
    | .finish map => (.finish map, true, none)
    | .init => (.init, true, some c)
    | .rollback map idx pos within => (.rollback map idx pos within, false, none)
  | .finish map, _ => (.init, false, transcode_map[map]?.map TranscodeMap.ch)
  | .rollback map idx pos within, _ =>
    (if more : pos + 1 ≠ idx then .rollback map idx (pos + 1) (by omega) else .init, false, some (entChar map pos))

def decodeRank : DecodeState → Nat
  | .init => 0
  | .map _ idx => idx + 1
  | .rollback _ idx pos _ => idx - pos
  | .finish _ => 1

private theorem nextchar_rank (map idx : Nat) (c : UInt8) {m i p : Nat} {within : p < i}
    (back : nextchar map idx c = .rollback m i p within) : i = idx ∧ p = 0 := by
  unfold nextchar matched at back
  split_ifs at back
  cases back
  exact ⟨rfl, rfl⟩

/-- The loop of `_htmlent_decoder`. -/
def decode : Machine DecodeState where
  step := decodeRound
  rank := decodeRank
  reads := by
    rintro (_ | ⟨map, idx⟩ | ⟨map, idx, pos, within⟩ | map) c unread
    · simp only [decodeRound] at unread
      split at unread <;> cases unread
    · simp only [decodeRound] at unread ⊢
      split at unread <;> try cases unread
      next m i p within back =>
        obtain ⟨rfl, rfl⟩ := nextchar_rank map idx c back
        simp [decodeRank]
    · simp only [decodeRound]
      split
      · simp only [decodeRank]
        omega
      · simp only [decodeRank]
        omega
    · simp [decodeRound, decodeRank]

def _htmlent_decoder : Xcode DecodeState := fun state cmd input osize =>
  match cmd with
  | .init => ⟨.ok, .init, input.length, osize, [], false⟩
  | .done => ⟨.ok, state, input.length, osize, [], false⟩
  | _ =>
    let (state, rest, output) := decode.run state input osize []
    ⟨.ok, state, input.length - rest.length, output.length, output, false⟩

theorem encoder_yields (held x : List UInt8) : Yields _htmlent_encoder held 1 (·.last) x (encode.writes held x) := by
  refine encode.yields (fun s o input => ?_) held x
  rcases o.command_cases with last | more
  · rw [last]; rfl
  · rw [more]; rfl

theorem decoder_yields (state : DecodeState) (y : List UInt8) :
    Yields _htmlent_decoder state 1 (·.last) y (decode.writes state y) := by
  refine decode.yields (fun s o input => ?_) state y
  rcases o.command_cases with last | more
  · rw [last]; rfl
  · rw [more]; rfl

/-- What is written for a byte in the end. -/
def unit (c : UInt8) : List UInt8 := ((ch2ent c).map TranscodeMap.ent).getD [c]

theorem encode_feed (x : List UInt8) :
    (feed encode.absorb [] x).2 ++ (feed encode.absorb [] x).1 = x.flatMap unit ∧
      (feed encode.absorb [] x).1 = ((x.getLast?.bind ch2ent).map TranscodeMap.ent).getD [] := by
  have absorbs (held : List UInt8) (c : UInt8) : encode.absorb held c =
      (((ch2ent c).map TranscodeMap.ent).getD [], held ++ if ch2ent c = none then [c] else []) := by
    induction held with
    | nil =>
      cases found : ch2ent c with
      | none => rw [encode.absorb_read (show _ = ([], true, some c) by simp [encode, found])]; rfl
      | some e => rw [encode.absorb_read (show _ = (e.ent, true, none) by simp [encode, found])]; rfl
    | cons b held ih => rw [encode.absorb_wait (show _ = (held, false, some b) from rfl), ih]; rfl
  induction x using List.reverseRecOn with
  | nil => simp
  | append_singleton x c ih =>
    rw [feed_concat, absorbs, List.flatMap_append, ← ih.1]
    cases found : ch2ent c <;> simp [unit, found]

/-- What the decoder has read but not written, where it is not in the middle of an entity. -/
inductive Holds : DecodeState → List UInt8 → Prop
  | init : Holds .init []
  | finish {map : Nat} {e : TranscodeMap} (entry : transcode_map[map]? = some e) : Holds (.finish map) [e.ch]

theorem absorb_held {state : DecodeState} {held : List UInt8} (holds : Holds state held) (c : UInt8) :
    decode.absorb state c = ((decode.absorb .init c).1, held ++ (decode.absorb .init c).2) := by
  cases holds with
  | init => rfl
  | finish entry =>
    rw [decode.absorb_wait (show _ = (.init, false, _) from rfl), entry]
    rfl

theorem feed_held {state : DecodeState} {held : List UInt8} (holds : Holds state held) {y : List UInt8}
    (some : y ≠ []) :
    feed decode.absorb state y = ((feed decode.absorb .init y).1, held ++ (feed decode.absorb .init y).2) := by
  cases y with
  | nil => exact absurd rfl some
  | cons c y => rw [feed_cons, feed_cons, absorb_held holds c, List.append_assoc]

theorem feed_unit (c : UInt8) : ∃ state held,
    feed decode.absorb .init (unit c) = (state, if ch2ent c = none then [c] else []) ∧
    Holds state held ∧ (if ch2ent c = none then [c] else []) ++ held = [c] := by
  cases found : ch2ent c with
  | none =>
    have plain : ∀ c : UInt8, ch2ent c = none → decode.absorb .init c = (.init, [c]) :=
      byte_forall (by decide +kernel)
    exact ⟨.init, [], by simp [unit, found, feed_cons, plain c found], .init, by simp⟩
  | some e =>
    have entries : ∀ e ∈ transcode_map, ∃ map ∈ [0, 1, 2], transcode_map[map]? = some e ∧
        feed decode.absorb .init e.ent = (.finish map, []) := by decide +kernel
    obtain ⟨map, _, entry, read⟩ := entries e (List.mem_of_find?_eq_some found)
    have same : e.ch = c := by simpa using List.find?_some found
    exact ⟨.finish map, [e.ch], by simp [unit, found, read], .finish entry, by simp [same]⟩

theorem decode_feed (x : List UInt8) :
    ∃ held, Holds (feed decode.absorb .init (x.flatMap unit)).1 held ∧
      (feed decode.absorb .init (x.flatMap unit)).2 ++ held = x ∧
      ((∀ c, x.getLast? = some c → ch2ent c = none) → held = []) := by
  induction x using List.reverseRecOn with
  | nil => exact ⟨[], .init, rfl, fun _ => rfl⟩
  | append_singleton x c ih =>
    obtain ⟨held, holds, text, _⟩ := ih
    obtain ⟨state, held', read, holds', one⟩ := feed_unit c
    have some : unit c ≠ [] := by
      have long : ∀ e ∈ transcode_map, e.ent ≠ [] := by decide
      unfold unit
      cases found : ch2ent c with
      | none => simp
      | some e => simpa using long e (List.mem_of_find?_eq_some found)
    refine ⟨held', ?_, ?_, fun plain => ?_⟩
    · rw [List.flatMap_append, List.flatMap_singleton, feed_append, feed_held holds some, read]
      exact holds'
    · rw [List.flatMap_append, List.flatMap_singleton, feed_append, feed_held holds some, read, List.append_assoc,
        List.append_assoc, one, ← List.append_assoc, text]
    · rw [if_pos (plain c (by simp))] at one
      simpa using one

/-- A text comes through both directions just when its last byte has no entity. -/
theorem htmlent_round_trip_iff (x : List UInt8) :
    (∃ y, Yields _htmlent_encoder [] 1 (·.last) x y ∧ Yields _htmlent_decoder .init 1 (·.last) y x) ↔
      ∀ c, x.getLast? = some c → c ∉ ascii "<>&" := by
  have special (c : UInt8) : ch2ent c = none ↔ c ∉ ascii "<>&" := by
    rw [show ascii "<>&" = [60, 62, 38] by decide, ch2ent, List.find?_eq_none, transcode_map, List.forall_mem_cons,
      List.forall_mem_cons, List.forall_mem_singleton]
    simp only [List.mem_cons, List.not_mem_nil, decide_eq_true_iff]
    tauto
  simp only [← special]
  obtain ⟨written, state⟩ := encode_feed x
  constructor
  · rintro ⟨y, encodes, decodes⟩ c last
    have text := encodes.unique (encoder_yields [] x) ⟨⟨0, true, 1⟩, rfl, Nat.le_refl 1⟩
    have back := decodes.unique (decoder_yields .init y) ⟨⟨0, true, 1⟩, rfl, Nat.le_refl 1⟩
    cases found : ch2ent c with
    | none => rfl
    | some e =>
      -- the entity that comes last is not written, so that less is decoded than was encoded
      obtain ⟨x', rfl⟩ := List.getLast?_eq_some_iff.mp last
      have short : y = x'.flatMap unit := by
        simp only [last, Option.bind_some, found, Option.map_some, Option.getD_some] at state
        rw [state, List.flatMap_append] at written
        simp only [List.flatMap_singleton, unit, found, Option.map_some, Option.getD_some] at written
        rw [text]
        exact List.append_cancel_right written
      obtain ⟨held, _, whole, _⟩ := decode_feed x'
      rw [short] at back
      have length := congrArg List.length whole
      rw [← Machine.writes, ← back] at length
      simp at length
  · intro plain
    have nothing : (feed encode.absorb [] x).1 = [] := by
      rw [state]
      cases last : x.getLast? with
      | none => rfl
      | some c => simp [plain c last]
    obtain ⟨held, _, whole, none⟩ := decode_feed x
    rw [none plain, List.append_nil] at whole
    rw [nothing, List.append_nil] at written
    refine ⟨_, encoder_yields [] x, ?_⟩
    rw [show encode.writes [] x = x.flatMap unit from written]
    have decodes := decoder_yields .init (x.flatMap unit)
    rwa [Machine.writes, whole] at decodes

/-- An entity that comes last is never written, however often the encoder is called. -/
theorem last_entity_lost :
    (drive _htmlent_encoder [] (ascii "a<") (List.replicate 4 ⟨0, true, 8⟩)).output = ascii "a" ∧
      (drive _htmlent_encoder [] (ascii "a<") (List.replicate 4 ⟨0, true, 8⟩)).finished = true ∧
      (drive _htmlent_decoder .init (ascii "a") (List.replicate 4 ⟨0, true, 8⟩)).output = ascii "a" ∧
      (drive _htmlent_decoder .init (ascii "a") (List.replicate 4 ⟨0, true, 8⟩)).finished = true := by
  decide +kernel

/-- The entity at the beginning of a text. -/
def entity? (s : List UInt8) : Option TranscodeMap := transcode_map.find? (·.ent.isPrefixOf s)

/-- The text with each entity replaced by its character, from left to right. -/
def unescaped : List UInt8 → List UInt8
  | [] => []
  | c :: rest =>
    match entity? (c :: rest) with
    | some e => e.ch :: unescaped (rest.drop (e.ent.length - 1))
    | none => c :: unescaped rest
termination_by s => s.length
decreasing_by
  · simp only [List.length_drop, List.length_cons]; omega
  · simp

/-- The beginnings of entities: nothing, `&`, `&a`, `&am`, `&amp`, `&g`, `&gt`, `&l` and `&lt`. -/
def partials : List (List UInt8) :=
  [[], [38], [38, 97], [38, 97, 109], [38, 97, 109, 112], [38, 103], [38, 103, 116], [38, 108], [38, 108, 116]]

/-- The first entry that begins so. -/
def mapOf (p : List UInt8) : Nat := (transcode_map.takeWhile fun e => ¬ p.isPrefixOf e.ent).length

/-- Where the decoder is when it has read the beginning of an entity. -/
def stateOf (p : List UInt8) : DecodeState := if p = [] then .init else .map (mapOf p) p.length

/-- What the decoder does with a byte behind the beginning of an entity. -/
def follow (p : List UInt8) (c : UInt8) : DecodeState × List UInt8 :=
  if p ++ [c] ∈ partials then (stateOf (p ++ [c]), [])
  else if p = [38, 97] ∧ c = 116 then (stateOf [38, 103, 116], [])
  else
    match transcode_map.findIdx? (·.ent = p ++ [c]) with
    | some map => (.finish map, [])
    | none => if c = AMPERSAND then (stateOf [AMPERSAND], p) else (.init, p ++ [c])

/-- The bytes of entities, and the null byte behind them. -/
def candidates : List UInt8 := [38, 97, 109, 112, 59, 103, 116, 108, 0]

variable {c : UInt8}

theorem nextchar_other {map idx : Nat} (within : map < transcode_map.length)
    (other : ∀ e ∈ transcode_map, c ≠ e.ent.getD idx 0) :
    nextchar map idx c = if begun : idx ≠ 0 then .rollback map idx 0 (Nat.pos_of_ne_zero begun) else .init := by
  have differs {k : Nat} (bound : k < transcode_map.length) : c ≠ entChar k idx := by
    rw [entChar, List.getElem?_eq_getElem bound]
    exact other _ (List.getElem_mem bound)
  rw [nextchar, if_neg (differs within), if_pos]
  by_cases inside : advance map idx c < transcode_map.length
  · exact .inr (differs inside)
  · exact .inl (by omega)

theorem absorb_rollback (map idx : Nat) (c : UInt8) : ∀ (n pos : Nat) (within : pos < idx), idx - pos = n →
    decode.absorb (.rollback map idx pos within) c =
      ((decode.absorb .init c).1, ((List.range' pos n).map (entChar map)) ++ (decode.absorb .init c).2) := by
  intro n
  induction n with
  | zero => intro pos within length; omega
  | succ n ih =>
    intro pos within length
    by_cases more : pos + 1 ≠ idx
    · rw [decode.absorb_wait (show _ = (.rollback map idx (pos + 1) (by omega), false, some (entChar map pos)) by
        simp [decode, decodeRound, more]), ih (pos + 1) (by omega) (by omega)]
      simp [List.range'_succ]
    · obtain rfl : n = 0 := by omega
      rw [decode.absorb_wait (show _ = (.init, false, some (entChar map pos)) by simp [decode, decodeRound, more])]
      simp

theorem absorb_partial (c : UInt8) {p : List UInt8} (mem : p ∈ partials) :
    decode.absorb (stateOf p) c = follow p c := by
  by_cases candidate : c ∈ candidates
  · have check : candidates.all (fun c => partials.all fun p => decide (decode.absorb (stateOf p) c = follow p c)) =
        true := by decide +kernel
    have at' := List.all_eq_true.mp (List.all_eq_true.mp check c candidate) p mem
    simpa using at'
  · -- the byte is none that `nextchar` could look for
    have entities : ∀ e ∈ transcode_map, c ∉ e.ent := by
      have check : transcode_map.all (·.ent.all (· ∈ candidates)) = true := by decide
      intro e member inside
      exact candidate (by simpa using List.all_eq_true.mp (List.all_eq_true.mp check e member) c inside)
    have beginnings : ∀ q ∈ partials, c ∉ q := by
      have check : partials.all (·.all (· ∈ candidates)) = true := by decide
      intro q member inside
      exact candidate (by simpa using List.all_eq_true.mp (List.all_eq_true.mp check q member) c inside)
    have other (idx : Nat) : ∀ e ∈ transcode_map, c ≠ e.ent.getD idx 0 := by
      intro e member here
      by_cases inside : idx < e.ent.length
      · rw [List.getD_eq_getElem _ _ inside] at here
        exact entities e member (here ▸ List.getElem_mem inside)
      · rw [List.getD_eq_default _ _ (by omega)] at here
        exact candidate (here ▸ by decide)
    have plain : decode.absorb .init c = (.init, [c]) := by
      have stays : nextchar 0 0 c = .init := nextchar_other (by decide) (other 0)
      exact decode.absorb_read (o := some c) (by simp only [decode, decodeRound, stays])
    have table : follow p c = (.init, p ++ [c]) := by
      have none : transcode_map.findIdx? (·.ent = p ++ [c]) = none := by
        rw [List.findIdx?_eq_none_iff]
        intro e member
        exact decide_eq_false fun here => entities e member (here ▸ by simp)
      have notT : ¬ (p = [38, 97] ∧ c = 116) := fun both => candidate (both.2 ▸ by decide)
      rw [follow, if_neg (fun member => beginnings _ member (by simp)), if_neg notT, none]
      have notAmp : c ≠ AMPERSAND := fun here => candidate (here ▸ by decide)
      exact if_neg notAmp
    rw [table]
    by_cases begun : p = []
    · simpa [stateOf, begun] using plain
    · have start : ∀ p ∈ partials, p ≠ [] → mapOf p < transcode_map.length ∧
          (List.range' 0 p.length).map (entChar (mapOf p)) = p := by decide
      obtain ⟨bound, text⟩ := start p mem begun
      have length : p.length ≠ 0 := by simpa using begun
      have back := nextchar_other bound (other p.length)
      rw [dif_pos length] at back
      have round : decode.step (.map (mapOf p) p.length) c =
          (.rollback (mapOf p) p.length 0 (Nat.pos_of_ne_zero length), false, none) := by
        simp only [decode, decodeRound, back]
      rw [stateOf, if_neg begun, decode.absorb_wait round, absorb_rollback _ _ c p.length 0 _ (Nat.sub_zero _), text,
        plain]
      rfl

theorem unescaped_entity {e : TranscodeMap} (mem : e ∈ transcode_map) (rest : List UInt8) :
    unescaped (e.ent ++ rest) = e.ch :: unescaped rest := by
  simp only [transcode_map, List.mem_cons, List.not_mem_nil, or_false] at mem
  rcases mem with rfl | rfl | rfl <;> simp [unescaped, entity?, transcode_map]

variable {rest : List UInt8}

theorem unescaped_cons (none : entity? (c :: rest) = none) :
    unescaped (c :: rest) = c :: unescaped rest := by
  rw [unescaped, none]

theorem unescaped_other (other : c ≠ AMPERSAND) (rest : List UInt8) :
    unescaped (c :: rest) = c :: unescaped rest := by
  refine unescaped_cons (List.find?_eq_none.mpr fun e mem => ?_)
  simp only [transcode_map, List.mem_cons, List.not_mem_nil, or_false] at mem
  rcases mem with rfl | rfl | rfl <;> simp [other.symm]

/-- The text `&at`. -/
def at' : List UInt8 := [38, 97, 116]

theorem at_cons (other : c ≠ AMPERSAND) (rest : List UInt8) : at' <:+: c :: rest ↔ at' <:+: rest := by
  rw [List.infix_cons_iff]
  simp [at', other.symm]

theorem plain_append {q : List UInt8} (free : AMPERSAND ∉ q) (rest : List UInt8) :
    unescaped (q ++ rest) = q ++ unescaped rest ∧ (at' <:+: q ++ rest ↔ at' <:+: rest) := by
  induction q with
  | nil => exact ⟨rfl, Iff.rfl⟩
  | cons c q ih =>
    rw [List.mem_cons, not_or] at free
    obtain ⟨text, infix'⟩ := ih free.2
    rw [List.cons_append, unescaped_other (Ne.symm free.1), text, at_cons (Ne.symm free.1)]
    exact ⟨rfl, infix'⟩

theorem at_append {q : List UInt8} (free : AMPERSAND ∉ q) (notAt : ¬ at' <+: AMPERSAND :: (q ++ rest)) :
    at' <:+: AMPERSAND :: (q ++ rest) ↔ at' <:+: rest := by
  rw [List.infix_cons_iff, or_iff_right notAt, (plain_append free rest).2]

/-- A word that is found behind the beginning of an entity, where that does not go on, is the beginning and the
    next byte. -/
theorem begins_with {w p : List UInt8} (inits : ∀ q ∈ w.inits, q ∈ partials ∨ q = w) (ends : ∀ p ∈ partials, ¬ w <+: p)
    (mem : p ∈ partials) (stops : p ++ [c] ∉ partials) (begins : w <+: p ++ c :: rest) :
    w = p ++ [c] := by
  have next : p ++ [c] <+: p ++ c :: rest := ⟨rest, by simp⟩
  rcases Nat.lt_or_ge p.length w.length with longer | shorter
  · have part : p ++ [c] <+: w := List.prefix_of_prefix_length_le next begins (by simp; omega)
    exact ((inits _ ((List.mem_inits _ _).mpr part)).resolve_left stops).symm
  · exact absurd (List.prefix_of_prefix_length_le begins (List.prefix_append p _) shorter) (ends p mem)

theorem partial_append {p : List UInt8} (mem : p ∈ partials) (stops : p ++ [c] ∉ partials)
    (notAt : ¬ (p = [38, 97] ∧ c = 116)) (none : ∀ e ∈ transcode_map, e.ent ≠ p ++ [c]) (rest : List UInt8) :
    unescaped (p ++ c :: rest) = p ++ unescaped (c :: rest) ∧ (at' <:+: p ++ c :: rest ↔ at' <:+: c :: rest) := by
  have noEntity : entity? (p ++ c :: rest) = .none := by
    have inits : ∀ e ∈ transcode_map, ∀ q ∈ e.ent.inits, q ∈ partials ∨ q = e.ent := by decide
    have ends : ∀ e ∈ transcode_map, ∀ p ∈ partials, ¬ e.ent <+: p := by decide
    refine List.find?_eq_none.mpr fun e member begins => ?_
    exact none e member (begins_with (inits e member) (ends e member) mem stops (by simpa using begins))
  have other : ¬ at' <+: p ++ c :: rest := by
    intro begins
    have same := begins_with (by decide) (by decide) mem stops begins
    obtain ⟨rfl, byte⟩ := List.append_inj' (show [38, 97] ++ [116] = p ++ [c] from same) rfl
    exact notAt ⟨rfl, (List.singleton_inj.mp byte).symm⟩
  have shape : ∀ p ∈ partials, p = [] ∨ p.head? = some AMPERSAND ∧ AMPERSAND ∉ p.tail := by decide
  rcases shape p mem with rfl | ⟨first, free⟩
  · exact ⟨rfl, Iff.rfl⟩
  · obtain ⟨q, rfl⟩ := List.head?_eq_some_iff.mp first
    rw [List.tail_cons] at free
    rw [List.cons_append] at noEntity other ⊢
    exact ⟨by rw [unescaped_cons noEntity, (plain_append free _).1, List.cons_append], at_append free other⟩

theorem writes_finish {map : Nat} {e : TranscodeMap} (entry : transcode_map[map]? = some e) (c : UInt8)
    (rest : List UInt8) : decode.writes (.finish map) (c :: rest) = e.ch :: decode.writes .init (c :: rest) := by
  rw [Machine.writes_cons, absorb_held (.finish entry) c, Machine.writes_cons]
  rfl

/-- The text `&at` is taken for `&gt`, whatever comes behind. -/
theorem writes_at (c : UInt8) (rest : List UInt8) :
    decode.writes (stateOf [38, 103, 116]) (c :: rest) ≠ unescaped (at' ++ c :: rest) := by
  have text : unescaped (at' ++ c :: rest) = 38 :: 97 :: unescaped (116 :: c :: rest) := by
    rw [show at' ++ c :: rest = 38 :: 97 :: 116 :: c :: rest from rfl,
      unescaped_cons (by simp [entity?, transcode_map]), unescaped_other (by decide)]
  rw [text, Machine.writes_cons, absorb_partial c (by decide)]
  by_cases ends : c = 59
  · subst ends
    rw [show follow [38, 103, 116] 59 = (.finish 1, []) by decide, List.nil_append]
    cases rest with
    | nil => simp [Machine.writes]
    | cons d rest =>
      rw [writes_finish (show _ = some ⟨[38, 103, 116, 59], 62⟩ from rfl)]
      exact fun same => absurd (List.cons.inj same).1 (by decide)
  · have back : ∃ state o, follow [38, 103, 116] c = (state, 38 :: 103 :: o) := by
      have none : transcode_map.findIdx? (·.ent = [38, 103, 116] ++ [c]) = none := by
        simp [transcode_map, List.findIdx?_cons, Ne.symm ends]
      rw [follow, if_neg (by simp [partials]), if_neg (by simp), none]
      by_cases amp : c = AMPERSAND
      · exact ⟨_, _, if_pos amp⟩
      · exact ⟨_, _, if_neg amp⟩
    obtain ⟨state, o, back⟩ := back
    rw [back]
    exact fun same => absurd (List.cons.inj (List.cons.inj same).2).1 (by decide)

/-- Behind the beginning of an entity, the decoder writes what it ought to just when there is no `&at`. -/
theorem writes_iff (s : List UInt8) : s.getLast? = some LF → ∀ p ∈ partials,
    (decode.writes (stateOf p) s = unescaped (p ++ s) ↔ ¬ at' <:+: p ++ s) := by
  induction s with
  | nil => simp
  | cons c rest ih =>
    intro newline p mem
    rw [Machine.writes_cons, absorb_partial c mem]
    cases rest with
    | nil =>
      obtain rfl : c = LF := by simpa using newline
      have stops : ∀ p ∈ partials, p ++ [LF] ∉ partials ∧ (∀ e ∈ transcode_map, e.ent ≠ p ++ [LF]) ∧
          follow p LF = (.init, p ++ [LF]) := by decide
      obtain ⟨stop, none, written⟩ := stops p mem
      obtain ⟨text, infix'⟩ := partial_append mem stop (fun both => absurd both.2 (by decide)) none []
      have absent : ¬ at' <:+: [LF] := by decide
      rw [written, text, infix', unescaped_other (by decide)]
      simp [Machine.writes, unescaped, absent]
    | cons d rest =>
      rw [List.getLast?_cons_cons] at newline
      have go := ih newline
      by_cases onward : p ++ [c] ∈ partials
      · rw [follow, if_pos onward, List.nil_append, List.append_cons p c (d :: rest)]
        exact go _ onward
      · by_cases wrong : p = [38, 97] ∧ c = 116
        · obtain ⟨rfl, rfl⟩ := wrong
          rw [follow, if_neg onward, if_pos ⟨rfl, rfl⟩, List.nil_append]
          exact iff_of_false (writes_at d rest) (not_not_intro (List.infix_append' [] at' (d :: rest)))
        · rw [follow, if_neg onward, if_neg wrong]
          cases found : transcode_map.findIdx? (·.ent = p ++ [c]) with
          | some map =>
            obtain ⟨bound, whole, _⟩ := List.findIdx?_eq_some_iff_getElem.mp found
            have entry : transcode_map[map]? = some transcode_map[map] := List.getElem?_eq_getElem bound
            have member := List.getElem_mem bound
            rw [decide_eq_true_iff] at whole
            generalize transcode_map[map] = e at whole entry member
            rw [List.nil_append, writes_finish entry, List.append_cons p c (d :: rest), ← whole,
              unescaped_entity member, List.cons_inj_right]
            have apart : ∀ e ∈ transcode_map, e.ent.head? = some AMPERSAND ∧ AMPERSAND ∉ e.ent.tail ∧ e.ent.take at'.length ≠ at' ∧
                at'.length ≤ e.ent.length := by decide
            obtain ⟨first, free, differs, long⟩ := apart e member
            have absent : ¬ at' <+: e.ent ++ d :: rest := by
              intro begins
              have same := List.prefix_iff_eq_take.mp begins
              rw [List.take_append_of_le_length long] at same
              exact differs same.symm
            obtain ⟨q, shape⟩ := List.head?_eq_some_iff.mp first
            rw [shape, List.tail_cons] at free
            rw [shape, List.cons_append] at absent ⊢
            rw [at_append free absent]
            exact go [] (by decide)
          | none =>
            have none : ∀ e ∈ transcode_map, e.ent ≠ p ++ [c] := by
              intro e member
              simpa using List.findIdx?_eq_none_iff.mp found e member
            obtain ⟨text, infix'⟩ := partial_append mem onward wrong none (d :: rest)
            rw [text, infix']
            by_cases amp : c = AMPERSAND
            · subst amp
              simp only [if_true, List.append_cancel_left_eq]
              exact go [AMPERSAND] (by decide)
            · simp only [if_neg amp, List.append_assoc, List.singleton_append, unescaped_other amp, at_cons amp,
                List.append_cancel_left_eq, List.cons_inj_right]
              exact go [] (by decide)

/-- The decoder rewrites the entities of a line of text and nothing else just when there is no `&at` in it. -/
theorem htmlent_decodes_iff (s : List UInt8) (newline : s.getLast? = some LF) :
    Yields _htmlent_decoder .init 1 (·.last) s (unescaped s) ↔ ¬ ascii "&at" <:+: s := by
  rw [show ascii "&at" = at' by decide]
  have same := writes_iff s newline [] (by decide)
  rw [List.nil_append] at same
  rw [← same]
  constructor
  · intro yields
    exact (decoder_yields .init s).unique yields ⟨⟨0, true, 1⟩, rfl, Nat.le_refl 1⟩
  · intro equal
    rw [← equal]
    exact decoder_yields .init s

/-- A line with entities, with beginnings of entities and with an ampersand that begins none. -/
theorem htmlent_decodes_line : (ascii "&lt;a&amp b&amp;lt;&&gt;\n").getLast? = some LF ∧
    Yields _htmlent_decoder .init 1 (·.last) (ascii "&lt;a&amp b&amp;lt;&&gt;\n")
      (unescaped (ascii "&lt;a&amp b&amp;lt;&&gt;\n")) :=
  ⟨by decide, (htmlent_decodes_iff _ (by decide)).mpr (by decide)⟩

/-- The text `&at;` is rewritten, though it is no entity, and of `&at` without the semicolon a letter is changed. -/
theorem htmlent_rewrites_at :
    unescaped (ascii "&at;\n") = ascii "&at;\n" ∧
      (drive _htmlent_decoder .init (ascii "&at;\n") [⟨0, true, 16⟩]).output = ascii ">\n" ∧
      unescaped (ascii "R&attach\n") = ascii "R&attach\n" ∧
      (drive _htmlent_decoder .init (ascii "R&attach\n") [⟨0, true, 16⟩]).output = ascii "R&gttach\n" := by
  decide +kernel

end Mailutils.Htmlent

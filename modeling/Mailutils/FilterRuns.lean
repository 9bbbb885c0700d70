import Mailutils.Filter

/-!
Whole runs of a transcoder, whatever the buffers. When every call keeps the account between
what has been written and what is still to be written (`Reply.Accounts`), so does every run; when the
calls that offer everything also move on, enough of them finish the run (`yields_of_accounts`).
-/
namespace Mailutils.Filter
open Mailutils.Transducer

/-- Whatever the buffers, of at least `least` bytes of output, a run over `data` that finishes has written
    `result`, and enough of the `full` calls finish it. -/
def Yields {σ : Type} (xcode : Xcode σ) (state : σ) (least : Nat) (full : Offer → Bool) (data result : List UInt8) :
    Prop :=
  (∀ schedule : List Offer, (∀ o ∈ schedule, least ≤ o.room) → (drive xcode state data schedule).finished = true →
    (drive xcode state data schedule).output = result) ∧
  ∃ calls, ∀ schedule : List Offer, (∀ o ∈ schedule, least ≤ o.room) → calls < schedule.countP full →
    (drive xcode state data schedule).finished = true

/-- The reply to a call keeps the account: `total` is what is to be written for the data that are pending,
    and `good` says when that can be relied on. -/
def Reply.Accounts {σ : Type} (total : σ → List UInt8 → List UInt8) (good : σ → List UInt8 → Prop) (state : σ)
    (pending : List UInt8) (reply : Reply σ) : Prop :=
  match reply.result with
  | .ok | .again =>
    good reply.state (pending.drop reply.isize) ∧
      total state pending = reply.written ++ total reply.state (pending.drop reply.isize)
  | .failure | .moreinput | .moreoutput =>
    good reply.state pending ∧ total state pending = total reply.state pending

/-- The reply to a call moves on: it ends the data, or something is consumed or written. -/
def Reply.Moves {σ : Type} (pending : List UInt8) (reply : Reply σ) : Prop :=
  reply.result = .ok ∧ (pending.drop reply.isize = [] ∨ reply.written ≠ [] ∨ 0 < reply.isize)

theorem offer_ok {σ : Type} {xcode : Xcode σ} {s : Session σ} {o : Offer} {s' : σ} {k : Nat} {output : List UInt8}
    {eof : Bool} (running : s.finished = false)
    (reply : xcode s.state o.command (o.portion s.pending) o.room = ⟨.ok, s', k, output.length, output, eof⟩) :
    s.offer xcode o =
      ⟨s', s.pending.drop k, s.output ++ output, s.eof || eof, o.last && (s.pending.drop k).isEmpty⟩ := by
  simp [Session.offer, Session.accept, running, reply]

private theorem offer_output {σ : Type} {xcode : Xcode σ} (s : Session σ) (o : Offer) :
    s.output <+: (s.offer xcode o).output := by
  unfold Session.offer Session.accept
  split
  · exact List.prefix_rfl
  · split
    · exact List.prefix_append _ _
    · exact List.prefix_append _ _
    · exact List.prefix_rfl
    · exact List.prefix_rfl
    · exact List.prefix_rfl

section Account
variable {σ : Type} {xcode : Xcode σ} {least : Nat} {full : Offer → Bool} {total : σ → List UInt8 → List UInt8}
  {good : σ → List UInt8 → Prop} {state : σ} {data : List UInt8}

theorem Yields.finished {result : List UInt8} (yields : Yields xcode state least full data result)
    (usable : ∃ o, full o = true ∧ least ≤ o.room) :
    ∃ schedule : List Offer, (∀ o ∈ schedule, least ≤ o.room) ∧ (drive xcode state data schedule).finished = true ∧
      (drive xcode state data schedule).output = result := by
  obtain ⟨o, counts, room⟩ := usable
  obtain ⟨outputs, n, finishes⟩ := yields
  have rooms : ∀ o' ∈ List.replicate (n + 1) o, least ≤ o'.room := by
    intro o' mem
    rw [List.eq_of_mem_replicate mem]
    exact room
  have done := finishes _ rooms (by simp [List.countP_replicate, counts])
  exact ⟨_, rooms, done, outputs _ rooms done⟩

theorem Yields.unique {result result' : List UInt8} (first : Yields xcode state least full data result)
    (second : Yields xcode state least full data result') (usable : ∃ o, full o = true ∧ least ≤ o.room) :
    result = result' := by
  obtain ⟨schedule, rooms, done, output⟩ := first.finished usable
  rw [← output]
  exact second.1 schedule rooms done

/-- A session that keeps the account of the data it started with. -/
structure Session.Sound (total : σ → List UInt8 → List UInt8) (good : σ → List UInt8 → Prop) (whole : List UInt8)
    (s : Session σ) : Prop where
  good : good s.state s.pending
  account : whole = s.output ++ total s.state s.pending
  finished : s.finished = true → s.pending = []

/-- What remains to be done in a session. -/
def Session.work (total : σ → List UInt8 → List UInt8) (s : Session σ) : Nat :=
  (total s.state s.pending).length + s.pending.length

variable (calls : ∀ (state : σ) (pending : List UInt8) (o : Offer), good state pending → least ≤ o.room →
  (xcode state o.command (o.portion pending) o.room).Accounts total good state pending)
include calls

theorem offer_sound {whole : List UInt8} (s : Session σ) (o : Offer) (sound : s.Sound total good whole)
    (room : least ≤ o.room) : (s.offer xcode o).Sound total good whole := by
  unfold Session.offer
  split
  · exact sound
  · next running =>
    have account := calls s.state s.pending o sound.good room
    unfold Reply.Accounts at account
    unfold Session.accept
    cases kind : (xcode s.state o.command (o.portion s.pending) o.room).result with
    | ok =>
      simp only [kind] at account ⊢
      exact ⟨account.1, by simp [sound.account, account.2], fun done => by simp_all⟩
    | again =>
      simp only [kind] at account ⊢
      exact ⟨account.1, by simp [sound.account, account.2], fun done => absurd done running⟩
    | failure | moreinput | moreoutput =>
      simp only [kind] at account ⊢
      exact ⟨account.1, by simp [sound.account, account.2], fun done => absurd done running⟩

theorem drive_sound (schedule : List Offer) (rooms : ∀ o ∈ schedule, least ≤ o.room) (start : good state data) :
    (drive xcode state data schedule).Sound total good (total state data) :=
  foldl_keeps (Session.offer xcode) (Session.Sound total good (total state data)) (least ≤ ·.room)
    (fun s o sound room => offer_sound calls s o sound room) schedule rooms _ ⟨start, rfl, fun done => by cases done⟩

theorem drive_output (empty : ∀ s, good s [] → total s [] = []) (schedule : List Offer)
    (rooms : ∀ o ∈ schedule, least ≤ o.room) (start : good state data)
    (done : (drive xcode state data schedule).finished = true) :
    (drive xcode state data schedule).output = total state data := by
  have sound := drive_sound calls schedule rooms start
  have consumed := sound.finished done
  have held := sound.good
  rw [consumed] at held
  rw [sound.account, consumed, empty _ held, List.append_nil]

theorem offer_work (s : Session σ) (o : Offer) (fine : good s.state s.pending) (room : least ≤ o.room) :
    (s.offer xcode o).work total ≤ s.work total := by
  unfold Session.offer
  split
  · exact Nat.le_refl _
  · have account := calls s.state s.pending o fine room
    unfold Reply.Accounts at account
    unfold Session.accept
    cases kind : (xcode s.state o.command (o.portion s.pending) o.room).result with
    | ok | again =>
      simp only [kind] at account ⊢
      have same := congrArg List.length account.2
      simp only [Session.work, List.length_append, List.length_drop] at same ⊢
      omega
    | failure | moreinput | moreoutput =>
      simp only [kind] at account ⊢
      simp [Session.work, account.2]

theorem ok_lowers (s : Session σ) (o : Offer) (fine : good s.state s.pending) (room : least ≤ o.room)
    (running : s.finished = false)
    (ok : (xcode s.state o.command (o.portion s.pending) o.room).result = .ok)
    (moved : (xcode s.state o.command (o.portion s.pending) o.room).written ≠ [] ∨
      0 < (xcode s.state o.command (o.portion s.pending) o.room).isize ∧ s.pending ≠ []) :
    (s.offer xcode o).work total < s.work total := by
  have account := calls s.state s.pending o fine room
  unfold Reply.Accounts at account
  unfold Session.offer Session.accept
  simp only [ok, running] at account ⊢
  have same := congrArg List.length account.2
  simp only [Bool.false_eq_true, if_false, Session.work, List.length_append, List.length_drop] at same ⊢
  rcases moved with wrote | ⟨read, more⟩
  · have := List.length_pos_iff.mpr wrote
    omega
  · have := List.length_pos_iff.mpr more
    omega

theorem offer_lowers (s : Session σ) (o : Offer) (fine : good s.state s.pending) (room : least ≤ o.room)
    (last : o.last = true) (moves : (xcode s.state o.command (o.portion s.pending) o.room).Moves s.pending)
    (going : (s.offer xcode o).finished ≠ true) : (s.offer xcode o).work total < s.work total := by
  have running : s.finished = false := by
    by_contra done
    exact going (by simp [Session.offer, done])
  obtain ⟨ok, moved⟩ := moves
  have left : s.pending.drop (xcode s.state o.command (o.portion s.pending) o.room).isize ≠ [] := by
    intro empty
    exact going (by simp [Session.offer, Session.accept, running, ok, last, empty])
  refine ok_lowers calls s o fine room running ok ?_
  rcases moved with empty | wrote | read
  · exact absurd empty left
  · exact .inl wrote
  · exact .inr ⟨read, fun none => left (by simp [none])⟩

variable (total good) in
/-- Calls that keep the account, and move on when everything is offered, yield what was to be written. -/
theorem yields_of_accounts (lasts : ∀ o, full o = true → o.last = true)
    (moves : ∀ (state : σ) (pending : List UInt8) (o : Offer), good state pending → least ≤ o.room → full o = true →
      (xcode state o.command (o.portion pending) o.room).Moves pending)
    (empty : ∀ s, good s [] → total s [] = []) (start : good state data) :
    Yields xcode state least full data (total state data) := by
  refine ⟨fun schedule rooms => drive_output calls empty schedule rooms start,
    (Session.start state data).work total, fun schedule rooms enough => ?_⟩
  refine foldl_reaches (Session.offer xcode) (Session.Sound total good (total state data)) (·.finished = true)
    (least ≤ ·.room) full (Session.work total) (fun s o sound room => offer_sound calls s o sound room)
    (fun s o _ _ done => by simp [Session.offer, done]) ?_
    (fun s o sound room _ => offer_work calls s o sound.good room) schedule rooms _
    ⟨start, rfl, fun done => by cases done⟩ enough
  intro s o sound room going counts
  exact offer_lowers calls s o sound.good room (lasts o counts) (moves _ _ o sound.good room counts) going

/-- Calls that keep the account, and read or write something while there is something to be written, write all of
    it in the end. -/
theorem drive_settles (empty : ∀ s, good s [] → total s [] = [])
    (settle : ∀ (state : σ) (pending : List UInt8) (o : Offer), good state pending → least ≤ o.room → full o = true →
      total state pending ≠ [] → (xcode state o.command (o.portion pending) o.room).result = .ok ∧
        ((xcode state o.command (o.portion pending) o.room).written ≠ [] ∨
          0 < (xcode state o.command (o.portion pending) o.room).isize))
    (schedule : List Offer) (rooms : ∀ o ∈ schedule, least ≤ o.room) (start : good state data)
    (enough : (Session.start state data).work total < schedule.countP full) :
    (drive xcode state data schedule).output = total state data := by
  have stays (s : Session σ) (o : Offer) (sound : s.Sound total good (total state data)) (room : least ≤ o.room)
      (nothing : total s.state s.pending = []) :
      total (s.offer xcode o).state (s.offer xcode o).pending = [] := by
    have account := (offer_sound calls s o sound room).account
    obtain ⟨more, grows⟩ : s.output <+: (s.offer xcode o).output := offer_output s o
    rw [sound.account, nothing, List.append_nil, ← grows, List.append_assoc, List.self_eq_append_right,
      List.append_eq_nil_iff] at account
    exact account.2
  have settled : total (drive xcode state data schedule).state (drive xcode state data schedule).pending = [] := by
    refine foldl_reaches (Session.offer xcode) (Session.Sound total good (total state data))
      (fun s => total s.state s.pending = []) (least ≤ ·.room) full (Session.work total)
      (fun s o sound room => offer_sound calls s o sound room) stays ?_
      (fun s o sound room _ => offer_work calls s o sound.good room) schedule rooms _
      ⟨start, rfl, fun done => by cases done⟩ enough
    intro s o sound room left counts
    have more : s.pending ≠ [] := by
      intro none
      have nothing : total s.state s.pending = [] := by
        rw [none]
        exact empty s.state (none ▸ sound.good)
      exact left (stays s o sound room nothing)
    have running : s.finished = false := by
      by_contra done
      exact more (sound.finished (by simpa using done))
    obtain ⟨ok, moved⟩ := settle s.state s.pending o sound.good room counts
      (fun nothing => left (stays s o sound room nothing))
    exact ok_lowers calls s o sound.good room running ok (moved.imp_right fun read => ⟨read, more⟩)
  have sound := drive_sound calls schedule rooms start
  rw [sound.account, settled, List.append_nil]

theorem eq_total_of_yields (usable : ∃ o, full o = true ∧ least ≤ o.room) (empty : ∀ s, good s [] → total s [] = [])
    (start : good state data) {result : List UInt8} (yields : Yields xcode state least full data result) :
    result = total state data := by
  obtain ⟨schedule, rooms, done, output⟩ := yields.finished usable
  rw [← output]
  exact drive_output calls empty schedule rooms start done

end Account

/-- A call whose loop reads as a machine does keeps the account of what the machine writes. -/
theorem accounts_of_ran {σ : Type} {step : σ → UInt8 → σ × List UInt8} {stop : σ → List UInt8 → Prop} {s s' : σ}
    {o : Offer} {pending output : List UInt8} {k : Nat} {eof : Bool}
    (ran : Ran step stop s (o.portion pending) [] s' k output) :
    (Reply.mk .ok s' k output.length output eof).Accounts (fun s p => (feed step s p).2) (fun _ _ => True) s
      pending := by
  refine ⟨trivial, ?_⟩
  have state := ran.state
  have written := ran.written
  rw [take_portion ran.bound] at state written
  rw [written_all, written, state, List.nil_append]
  conv_lhs => rw [← List.take_append_drop k pending]
  simp only [feed_append]

/-- A transcoder whose loop reads as a machine does, and does not stop before it has written something,
    yields what the machine writes. -/
theorem yields_of_ran {σ : Type} {xcode : Xcode σ} {step : σ → UInt8 → σ × List UInt8} {least : Nat}
    (stop : Nat → List UInt8 → Prop) (begins : ∀ room, least ≤ room → ¬ stop room [])
    (replies : ∀ (state : σ) (o : Offer) (input : List UInt8), least ≤ o.room → ∃ s' k output,
      xcode state o.command input o.room = ⟨.ok, s', k, output.length, output, false⟩ ∧
        Ran step (fun _ => stop o.room) state input [] s' k output)
    (state : σ) (x : List UInt8) : Yields xcode state least (·.last) x (feed step state x).2 := by
  refine yields_of_accounts (fun s p => (feed step s p).2) (fun _ _ => True) ?_ (fun _ last => last) ?_
    (fun _ _ => rfl) trivial
  · intro state pending o _ room
    obtain ⟨s', k, output, reply, ran⟩ := replies state o (o.portion pending) room
    rw [reply]
    exact accounts_of_ran ran
  · intro state pending o _ room last
    obtain ⟨s', k, output, reply, ran⟩ := replies state o (o.portion pending) room
    rw [reply]
    refine ⟨rfl, ?_⟩
    by_cases read : 0 < k
    · exact .inr (.inr read)
    · have all : o.portion pending = pending := by simp [Offer.portion, last]
      obtain rfl : k = 0 := by omega
      have written : output = [] := by simpa using ran.written
      have early := ran.early
      rw [written, all] at early
      left
      cases pending with
      | nil => rfl
      | cons c rest => exact absurd (early (by simp)) (begins o.room room)

theorem drop_unread {pending input rest tail : List UInt8} (split : pending = input ++ tail) (suffix : rest <:+ input) :
    pending.drop (input.length - rest.length) = rest ++ tail := by
  obtain ⟨used, rfl⟩ := suffix
  rw [split, List.length_append, Nat.add_sub_cancel, List.append_assoc, List.drop_left]

/-- What a loop over `input` leaves and has written keeps the account, with `tail` behind the input, and it stops at the
    end of its input or of its room. -/
structure Kept {σ : Type} (total : σ → List UInt8 → List UInt8) (good : σ → List UInt8 → Prop) (tail : List UInt8)
    (s : σ) (input : List UInt8) (room : Nat) (output : List UInt8) (after : σ × List UInt8 × List UInt8)
    (wrote : List UInt8) : Prop where
  left : after.2.1 <:+ input
  good : good after.1 (after.2.1 ++ tail)
  written : after.2.2 = output ++ wrote
  account : total s (input ++ tail) = wrote ++ total after.1 (after.2.1 ++ tail)
  ends : after.2.1 = [] ∨ room ≤ wrote.length

section Loop
variable {σ : Type} {total : σ → List UInt8 → List UInt8} {good : σ → List UInt8 → Prop} {tail : List UInt8} {s s' : σ}
  {input rest output wrote : List UInt8} {room : Nat} {after : σ × List UInt8 × List UInt8}

theorem kept_here (start : good s (input ++ tail)) (ends : input = [] ∨ room = 0) :
    Kept total good tail s input room output (s, input, output) [] where
  left := List.suffix_rfl
  good := start
  written := (List.append_nil output).symm
  account := rfl
  ends := ends.imp_right Nat.le_of_eq

theorem kept_round (more : List UInt8) (kept : Kept total good tail s' rest room (output ++ more) after wrote)
    (suffix : rest <:+ input) (step : total s (input ++ tail) = more ++ total s' (rest ++ tail)) :
    Kept total good tail s input (room + more.length) output after (more ++ wrote) where
  left := kept.left.trans suffix
  good := kept.good
  written := by rw [kept.written, List.append_assoc]
  account := by rw [step, kept.account, List.append_assoc]
  ends := kept.ends.imp_right fun full => by rw [List.length_append]; omega

theorem kept_silent (kept : Kept total good tail s' rest room output after wrote) (suffix : rest <:+ input)
    (step : total s (input ++ tail) = total s' (rest ++ tail)) : Kept total good tail s input room output after wrote :=
  kept_round [] (by rwa [List.append_nil]) suffix step

variable (total good) {xcode : Xcode σ} (loop : σ → List UInt8 → Nat → σ × List UInt8 × List UInt8)
  (calls : ∀ (s : σ) (o : Offer) (input : List UInt8), xcode s o.command input o.room =
    ⟨.ok, (loop s input o.room).1, input.length - (loop s input o.room).2.1.length, (loop s input o.room).2.2.length,
      (loop s input o.room).2.2, false⟩)
  (keeps : ∀ (tail : List UInt8) (s : σ) (input : List UInt8) (room : Nat), good s (input ++ tail) →
    ∃ wrote, Kept total good tail s input room [] (loop s input room) wrote)
include calls keeps

theorem accounts_of_kept (s : σ) (pending : List UInt8) (o : Offer) (start : good s pending) :
    (xcode s o.command (o.portion pending) o.room).Accounts total good s pending := by
  obtain ⟨tail, split, _⟩ := portion_append o pending
  obtain ⟨wrote, kept⟩ := keeps tail s (o.portion pending) o.room (split ▸ start)
  rw [calls]
  refine ⟨?_, ?_⟩
  · rw [drop_unread split kept.left]
    exact kept.good
  · rw [written_all, drop_unread split kept.left, kept.written, List.nil_append, ← kept.account, ← split]

theorem yields_of_kept (empty : ∀ s, good s [] → total s [] = []) {x : List UInt8} (start : good s x) :
    Yields xcode s 1 (·.last) x (total s x) := by
  refine yields_of_accounts total good
    (fun s pending o start _ => accounts_of_kept total good loop calls keeps s pending o start) (fun _ last => last) ?_
    empty start
  intro s pending o start room last
  have all : o.portion pending = pending := by simp [Offer.portion, last]
  obtain ⟨wrote, kept⟩ := keeps [] s pending o.room (by rwa [List.append_nil])
  rw [all, calls]
  refine ⟨rfl, ?_⟩
  rcases kept.ends with none | full
  · left
    simp [none]
  · right
    left
    rw [written_all, kept.written]
    rintro none
    rw [show wrote = [] from none, List.length_nil] at full
    omega
end Loop

section Copy
variable {xcode : Xcode Unit} {least : Nat} {P : UInt8 → Prop}
  (replies : ∀ (o : Offer) (input : List UInt8), (∀ c ∈ input, P c) → least ≤ o.room →
    xcode () o.command input o.room = ⟨.ok, (), min input.length o.room, (input.take (min input.length o.room)).length,
      input.take (min input.length o.room), false⟩)
include replies

theorem accounts_of_copy (state : Unit) (pending : List UInt8) (o : Offer) (plain : ∀ c ∈ pending, P c)
    (room : least ≤ o.room) : (xcode state o.command (o.portion pending) o.room).Accounts (fun _ p => p)
      (fun _ p => ∀ c ∈ p, P c) state pending := by
  have part : ∀ c ∈ o.portion pending, P c := by
    obtain ⟨rest, split, _⟩ := portion_append o pending
    intro c member
    exact plain c (split ▸ List.mem_append_left _ member)
  rw [replies o _ part room]
  refine ⟨fun c member => plain c (List.mem_of_mem_drop member), ?_⟩
  rw [written_all, take_portion (Nat.min_le_left _ _)]
  exact (List.take_append_drop _ pending).symm

/-- A transcoder that copies what it has room for yields a text of such bytes as it is. -/
theorem yields_of_copy (positive : 0 < least) {x : List UInt8} (plain : ∀ c ∈ x, P c) :
    Yields xcode () least (·.last) x x := by
  refine yields_of_accounts (fun _ p => p) (fun _ p => ∀ c ∈ p, P c) (accounts_of_copy replies) (fun _ last => last) ?_
    (fun _ _ => rfl) plain
  intro _ pending o plain room last
  have all : o.portion pending = pending := by simp [Offer.portion, last]
  rw [all, replies o _ plain room]
  refine ⟨rfl, ?_⟩
  cases pending with
  | nil => exact .inl rfl
  | cons c rest =>
    refine .inr (.inr ?_)
    simp
    omega
end Copy

/-! ## Machines that write before they read

The loop of a filter that goes on while there is input and room: it looks at the next byte and the state, writes at
most one byte, and reads the byte or leaves it for the next round. -/

/-- A round of the loop: the state after it, whether the byte was read, and what was written. A `rank` bounds the
    rounds until the byte is read. -/
structure Machine (σ : Type) where
  step : σ → UInt8 → σ × Bool × Option UInt8
  rank : σ → Nat
  reads : ∀ s c, (step s c).2.1 = false → rank (step s c).1 < rank s

namespace Machine
variable {σ : Type} (m : Machine σ)

/-- The rounds at one byte, until it is read or the room is used up: the state, whether the byte was read, the room
    that is left and the output. -/
def rounds (s : σ) (c : UInt8) (osize : Nat) (output : List UInt8) : σ × Bool × Nat × List UInt8 :=
  if osize = 0 then (s, false, 0, output)
  else if (m.step s c).2.1 = true then
    ((m.step s c).1, true, osize - (m.step s c).2.2.toList.length, output ++ (m.step s c).2.2.toList)
  else
    rounds (m.step s c).1 c (osize - (m.step s c).2.2.toList.length) (output ++ (m.step s c).2.2.toList)
termination_by m.rank s
decreasing_by exact m.reads s c (by simp_all)

/-- The loop `while (isize && osize)`: the state, the input not read and the output after it. -/
def run : σ → List UInt8 → Nat → List UInt8 → σ × List UInt8 × List UInt8
  | s, [], _, output => (s, [], output)
  | s, c :: rest, osize, output =>
    match m.rounds s c osize output with
    | (s', true, osize', output') => run s' rest osize' output'
    | (s', false, _, output') => (s', c :: rest, output')

/-- The rounds until a byte is read. -/
def absorb (s : σ) (c : UInt8) : σ × List UInt8 :=
  if (m.step s c).2.1 = true then ((m.step s c).1, (m.step s c).2.2.toList)
  else ((absorb (m.step s c).1 c).1, (m.step s c).2.2.toList ++ (absorb (m.step s c).1 c).2)
termination_by m.rank s
decreasing_by all_goals exact m.reads s c (by simp_all)

theorem absorb_read {s s' : σ} {c : UInt8} {o : Option UInt8} (step : m.step s c = (s', true, o)) :
    m.absorb s c = (s', o.toList) := by
  rw [absorb, step, if_pos rfl]

theorem absorb_wait {s s' : σ} {c : UInt8} {o : Option UInt8} (step : m.step s c = (s', false, o)) :
    m.absorb s c = ((m.absorb s' c).1, o.toList ++ (m.absorb s' c).2) := by
  rw [absorb, step, if_neg (by simp)]

/-- What the loop writes for a text when there is room. -/
def writes (s : σ) (x : List UInt8) : List UInt8 := (feed m.absorb s x).2

theorem writes_cons (s : σ) (c : UInt8) (x : List UInt8) :
    m.writes s (c :: x) = (m.absorb s c).2 ++ m.writes (m.absorb s c).1 x := rfl

/-- The rounds at one byte write what is written for it, or the beginning of that. -/
theorem rounds_account (s : σ) (c : UInt8) (osize : Nat) (output : List UInt8) :
    ∃ o, (m.rounds s c osize output).2.2.2 = output ++ o ∧ (m.rounds s c osize output).2.2.1 = osize - o.length ∧
      (if (m.rounds s c osize output).2.1 = true then m.absorb s c = ((m.rounds s c osize output).1, o)
      else osize ≤ o.length ∧ m.absorb s c = ((m.absorb (m.rounds s c osize output).1 c).1,
        o ++ (m.absorb (m.rounds s c osize output).1 c).2)) := by
  induction s, osize, output using rounds.induct m c with
  | case1 s output => exact ⟨[], by rw [rounds]; simp⟩
  | case2 s osize output room read =>
    rw [rounds, if_neg room, if_pos read]
    exact ⟨_, rfl, rfl, by rw [if_pos rfl, absorb, if_pos read]⟩
  | case3 s osize output room read ih =>
    obtain ⟨o, written, left, account⟩ := ih
    rw [rounds, if_neg room, if_neg read]
    refine ⟨(m.step s c).2.2.toList ++ o, by rw [written, List.append_assoc],
      by rw [left, List.length_append]; omega, ?_⟩
    rw [absorb, if_neg read]
    split at account
    · next done => rw [if_pos done, account]
    · next full =>
      rw [if_neg full, List.length_append, account.2, List.append_assoc]
      exact ⟨by omega, rfl⟩

theorem run_kept (tail : List UInt8) (s : σ) (input : List UInt8) (osize : Nat) (output : List UInt8) :
    ∃ o, Kept m.writes (fun _ _ => True) tail s input osize output (m.run s input osize output) o := by
  induction input generalizing s osize output with
  | nil => exact ⟨[], kept_here trivial (.inl rfl)⟩
  | cons c rest ih =>
    obtain ⟨o, written, left, account⟩ := m.rounds_account s c osize output
    rw [run]
    rcases stop : m.rounds s c osize output with ⟨s', read, osize', output'⟩
    simp only [stop] at written left account ⊢
    subst written left
    cases read with
    | true =>
      simp only [if_true] at account ⊢
      obtain ⟨o', kept⟩ := ih s' (osize - o.length) (output ++ o)
      have round := kept_round o kept (List.suffix_cons c rest) (by rw [List.cons_append, writes_cons, account])
      exact ⟨_, { round with ends := round.ends.imp_right fun full => by omega }⟩
    | false =>
      simp only [Bool.false_eq_true, if_false] at account ⊢
      refine ⟨o, List.suffix_rfl, trivial, rfl, ?_, .inr account.1⟩
      rw [List.cons_append, writes_cons, writes_cons, account.2, List.append_assoc]

theorem yields {xcode : Xcode σ} (calls : ∀ (s : σ) (o : Offer) (input : List UInt8),
      xcode s o.command input o.room = ⟨.ok, (m.run s input o.room []).1,
        input.length - (m.run s input o.room []).2.1.length, (m.run s input o.room []).2.2.length,
        (m.run s input o.room []).2.2, false⟩)
    (state : σ) (x : List UInt8) : Yields xcode state 1 (·.last) x (m.writes state x) :=
  yields_of_kept m.writes (fun _ _ => True) (fun s input room => m.run s input room []) calls
    (fun tail s input room _ => m.run_kept tail s input room []) (fun _ _ => rfl) trivial

end Machine

end Mailutils.Filter

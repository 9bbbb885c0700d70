import Mathlib.Data.List.Basic
import Mathlib.Data.List.Nodup
import Mathlib.Logic.Function.Basic

/-!
Circular lists in a memory that maps each address to its link. The links lead from one address through others to a last
one (`Path`), and in a ring from its head back to the head, in both directions (`Ring`). Elements are put into a ring by
setting the four links around them (`Ring.insert`), and a ring gets another head by setting the four links there
(`Ring.rehead`).
-/
namespace Mailutils.Circular

variable {α : Type*}

/-- The links lead from `a` through the list to `b`. -/
def Path (link : α → α) : α → List α → α → Prop
  | a, [], b => link a = b
  | a, x :: xs, b => link a = x ∧ Path link x xs b

section
variable {link link' : α → α} {a b c h y z : α} {xs ys front back : List α}

theorem path_append : ∀ {xs : List α} {a : α},
    Path link a (xs ++ y :: ys) b ↔ Path link a xs y ∧ Path link y ys b := by
  intro xs
  induction xs with
  | nil => exact fun {a} => Iff.rfl
  | cons x xs ih =>
    intro a
    rw [List.cons_append, Path, Path, ih, and_assoc]

theorem path_congr : ∀ {xs : List α} {a : α}, (∀ u ∈ a :: xs, link u = link' u) → Path link a xs b →
    Path link' a xs b := by
  intro xs
  induction xs with
  | nil => exact fun {a} same path => (same a List.mem_cons_self).symm.trans path
  | cons x xs ih =>
    rintro a same ⟨first, rest⟩
    refine ⟨(same a List.mem_cons_self).symm.trans first, ?_⟩
    exact ih (fun u member => same u (List.mem_cons_of_mem a member)) rest

theorem path_first (path : Path link a xs b) : link a = xs.headD b := by
  cases xs with
  | nil => exact path
  | cons x xs => exact path.1

theorem path_joint : ∀ {front : List α} {a : α}, Path link a (front ++ back) b → link (front.getLastD a) = back.headD b := by
  intro front
  induction front with
  | nil => exact fun {a} path => path_first path
  | cons x front ih =>
    rintro a ⟨_, rest⟩
    rw [List.getLastD_cons]
    exact ih rest

theorem path_mem : ∀ {xs : List α} {a u : α}, Path link a xs b → u ∈ a :: xs → link u ∈ xs ++ [b] := by
  intro xs
  induction xs with
  | nil =>
    intro a u path member
    rw [List.mem_singleton.mp member]
    exact List.mem_singleton.mpr path
  | cons x xs ih =>
    rintro a u ⟨first, rest⟩ member
    rcases List.mem_cons.mp member with rfl | member
    · rw [first]
      exact List.mem_cons_self
    · exact List.mem_cons_of_mem x (ih rest member)

variable [DecidableEq α]

theorem path_update (apart : z ∉ a :: xs) (path : Path link a xs b) : Path (Function.update link z c) a xs b := by
  refine path_congr (fun u member => ?_) path
  have other : u ≠ z := fun same => apart (same ▸ member)
  rw [Function.update_of_ne other]

theorem path_redirect : ∀ {xs : List α} {a : α}, (a :: xs).Nodup → Path link a xs b →
    Path (Function.update link (xs.getLastD a) c) a xs c := by
  intro xs
  induction xs with
  | nil => exact fun {a} _ _ => Function.update_self ..
  | cons x xs ih =>
    rintro a nodup ⟨first, rest⟩
    rw [List.getLastD_cons]
    refine ⟨?_, ih (List.nodup_cons.mp nodup).2 rest⟩
    have other : a ≠ xs.getLastD x := fun same => (List.nodup_cons.mp nodup).1 (same ▸ List.getLastD_mem_cons)
    rw [Function.update_of_ne other, first]

theorem path_insert (path : Path link h (front ++ back) h) (nodup : (h :: (front ++ back)).Nodup)
    (fresh : (y :: ys).Nodup) (apart : ∀ u ∈ y :: ys, u ∉ h :: (front ++ back)) (inner : Path link y ys c) :
    Path (Function.update (Function.update link (ys.getLastD y) (back.headD h)) (front.getLastD h) y) h
      (front ++ y :: ys ++ back) h := by
  have whole : (h :: front ++ back).Nodup := nodup
  obtain ⟨front_nodup, _, between⟩ := List.nodup_append.mp whole
  have last_old : front.getLastD h ∈ h :: front := List.getLastD_mem_cons
  have last_new : ys.getLastD y ∈ y :: ys := List.getLastD_mem_cons
  have among : ∀ u ∈ h :: front, u ∈ h :: (front ++ back) := fun u member => List.mem_append_left back member
  -- the links of what is put in, up to what comes behind
  have inner' : Path (Function.update (Function.update link (ys.getLastD y) (back.headD h)) (front.getLastD h) y) y ys
      (back.headD h) := by
    refine path_update (fun member => ?_) (path_redirect fresh inner)
    exact apart _ member (among _ last_old)
  have start {q : α} (before : Path link h front q) :
      Path (Function.update (Function.update link (ys.getLastD y) (back.headD h)) (front.getLastD h) y) h front y := by
    refine path_redirect front_nodup (path_update (fun member => ?_) before)
    exact apart _ last_new (among _ member)
  cases back with
  | nil =>
    rw [List.append_nil] at path ⊢
    exact path_append.mpr ⟨start path, inner'⟩
  | cons b back =>
    obtain ⟨before, behind⟩ := path_append.mp path
    refine path_append.mpr ⟨path_append.mpr ⟨start before, inner'⟩, ?_⟩
    refine path_update (fun member => ?_) (path_update (fun member => ?_) behind)
    · exact between _ last_old _ member rfl
    · exact apart _ last_new (List.mem_append_right (h :: front) member)

theorem path_rehead (path : Path link a (y :: ys) b) (nodup : (y :: ys).Nodup) (new : h ∉ y :: ys) :
    Path (Function.update (Function.update link h y) (ys.getLastD y) h) h (y :: ys) h := by
  have other : h ≠ ys.getLastD y := fun same => new (same ▸ List.getLastD_mem_cons)
  refine ⟨?_, path_redirect nodup (path_update new path.2)⟩
  rw [Function.update_of_ne other, Function.update_self]
end

/-- The links lead from the head through the elements and back to it, in both directions. -/
structure Ring (next prev : α → α) (h : α) (xs : List α) : Prop where
  forward : Path next h xs h
  backward : Path prev h xs.reverse h
  nodup : (h :: xs).Nodup

section
variable {next prev next' prev' : α → α} {h n y c d : α} {xs ys front back : List α}

theorem ring_nil : Ring next prev h [] ↔ next h = h ∧ prev h = h :=
  ⟨fun ring => ⟨ring.forward, ring.backward⟩, fun own => ⟨own.1, own.2, List.nodup_singleton h⟩⟩

theorem Ring.congr (ring : Ring next prev h xs) (same : ∀ u ∈ h :: xs, next u = next' u ∧ prev u = prev' u) :
    Ring next' prev' h xs := by
  refine ⟨path_congr (fun u member => (same u member).1) ring.forward, ?_, ring.nodup⟩
  refine path_congr (fun u member => (same u ?_).2) ring.backward
  rwa [List.mem_cons, List.mem_reverse, ← List.mem_cons] at member

theorem Ring.next_head (ring : Ring next prev h xs) : next h = xs.headD h := path_first ring.forward

theorem Ring.prev_head (ring : Ring next prev h xs) : prev h = xs.getLastD h := by
  rw [path_first ring.backward, List.headD_eq_head?_getD, List.head?_reverse, List.getLastD_eq_getLast?]

theorem Ring.joint (ring : Ring next prev h (front ++ back)) :
    next (front.getLastD h) = back.headD h ∧ prev (back.headD h) = front.getLastD h := by
  refine ⟨path_joint ring.forward, ?_⟩
  have backward := ring.backward
  rw [List.reverse_append] at backward
  have joint := path_joint backward
  rwa [List.headD_eq_head?_getD, List.head?_reverse, List.getLastD_eq_getLast?, List.getLast?_reverse,
    ← List.headD_eq_head?_getD, ← List.getLastD_eq_getLast?] at joint

theorem reverse_cons_eq (y : α) (ys : List α) : (y :: ys).reverse = ys.getLastD y :: (y :: ys).reverse.tail := by
  have first : (y :: ys).reverse.head? = some (ys.getLastD y) := by
    rw [List.head?_reverse, List.getLast?_cons, List.getLastD_eq_getLast?]
  exact (List.cons_head?_tail first).symm

theorem reverse_tail_last (y : α) (ys : List α) : (y :: ys).reverse.tail.getLastD (ys.getLastD y) = y := by
  have last : (ys.getLastD y :: (y :: ys).reverse.tail).getLast? = some y := by
    rw [← reverse_cons_eq, List.getLast?_reverse]
    rfl
  rw [List.getLast?_cons, Option.some.injEq] at last
  rw [List.getLastD_eq_getLast?]
  exact last

theorem Ring.inner (ring : Ring next prev h (y :: ys)) :
    Path next y ys h ∧ Path prev (ys.getLastD y) (y :: ys).reverse.tail h := by
  have backward := ring.backward
  rw [reverse_cons_eq] at backward
  exact ⟨ring.forward.2, backward.2⟩

variable [DecidableEq α]

/-- Elements, linked to each other, are put between two of a ring. -/
theorem Ring.insert (ring : Ring next prev h (front ++ back)) (fresh : (y :: ys).Nodup)
    (apart : ∀ u ∈ y :: ys, u ∉ h :: (front ++ back)) (forward : Path next y ys c)
    (backward : Path prev (ys.getLastD y) (y :: ys).reverse.tail d) :
    Ring (Function.update (Function.update next (ys.getLastD y) (back.headD h)) (front.getLastD h) y)
      (Function.update (Function.update prev y (front.getLastD h)) (back.headD h) (ys.getLastD y)) h
      (front ++ y :: ys ++ back) := by
  refine ⟨path_insert ring.forward ring.nodup fresh apart forward, ?_, ?_⟩
  -- the same the other way round
  · have reversed := ring.backward
    rw [List.reverse_append] at reversed
    have nodup : (h :: (back.reverse ++ front.reverse)).Nodup := by
      have := ring.nodup
      rw [List.nodup_cons] at this ⊢
      rw [← List.reverse_append, List.nodup_reverse, List.mem_reverse]
      exact this
    have path := path_insert reversed nodup (by rw [← reverse_cons_eq, List.nodup_reverse]; exact fresh)
      (fun u member there => by
        rw [← reverse_cons_eq, List.mem_reverse] at member
        rw [← List.reverse_append, List.mem_cons, List.mem_reverse, ← List.mem_cons] at there
        exact apart u member there) backward
    rw [reverse_tail_last, ← reverse_cons_eq, List.headD_eq_head?_getD, List.head?_reverse, List.getLastD_eq_getLast?,
      List.getLast?_reverse, ← List.headD_eq_head?_getD, ← List.getLastD_eq_getLast?] at path
    rwa [List.reverse_append, List.reverse_append, ← List.append_assoc]
  · have order : (h :: (front ++ y :: ys ++ back)).Perm ((y :: ys) ++ h :: (front ++ back)) := by
      refine .trans (.cons h ?_) List.perm_middle.symm
      rw [← List.append_assoc]
      exact List.perm_append_comm.append_right back
    rw [order.nodup_iff, List.nodup_append]
    refine ⟨fresh, ring.nodup, ?_⟩
    rintro u left v right rfl
    exact apart u left right

theorem Ring.snoc (ring : Ring next prev h xs) (new : y ∉ h :: xs) :
    Ring (Function.update (Function.update next y h) (xs.getLastD h) y)
      (Function.update (Function.update prev y (xs.getLastD h)) h y) h (xs ++ [y]) := by
  rw [← List.append_nil xs] at ring new
  have inserted := ring.insert (List.nodup_singleton y)
    (fun u member => by rw [List.mem_singleton.mp member]; exact new) rfl rfl
  rwa [List.append_nil] at inserted

theorem Ring.rehead (ring : Ring next prev n (y :: ys)) (new : h ∉ y :: ys) :
    Ring (Function.update (Function.update next h y) (ys.getLastD y) h)
      (Function.update (Function.update prev h (ys.getLastD y)) y h) h (y :: ys) := by
  have nodup := (List.nodup_cons.mp ring.nodup).2
  refine ⟨path_rehead ring.forward nodup new, ?_, List.nodup_cons.mpr ⟨new, nodup⟩⟩
  have backward := ring.backward
  rw [reverse_cons_eq] at backward ⊢
  have path := path_rehead (h := h) backward (by rw [← reverse_cons_eq, List.nodup_reverse]; exact nodup)
    (by rw [← reverse_cons_eq, List.mem_reverse]; exact new)
  rwa [reverse_tail_last] at path

/-- The elements in the order of the links, from an address on and until the head. -/
def walk (link : α → α) (h : α) : Nat → α → List α
  | 0, _ => []
  | fuel + 1, cur => if cur = h then [] else cur :: walk link h fuel (link cur)

theorem walk_path {link : α → α} : ∀ {xs : List α} {a : α} {fuel : Nat}, Path link a xs h → h ∉ xs →
    xs.length < fuel → walk link h fuel (link a) = xs := by
  intro xs
  induction xs with
  | nil =>
    intro a fuel path _ enough
    rw [show link a = h from path]
    cases fuel with
    | zero => rfl
    | succ fuel => exact if_pos rfl
  | cons x xs ih =>
    rintro a fuel ⟨rfl, rest⟩ apart enough
    rw [List.mem_cons, not_or] at apart
    cases fuel with
    | zero => exact absurd enough (Nat.not_lt_zero _)
    | succ fuel => rw [walk, if_neg (Ne.symm apart.1), ih rest apart.2 (Nat.lt_of_succ_lt_succ enough)]

theorem path_of_walk {link : α → α} : ∀ {xs : List α} {a : α} {fuel : Nat}, walk link h fuel (link a) = xs →
    xs.length < fuel → Path link a xs h := by
  intro xs
  induction xs with
  | nil =>
    intro a fuel walked enough
    cases fuel with
    | zero => exact absurd enough (Nat.not_lt_zero _)
    | succ fuel =>
      rw [walk] at walked
      split at walked
      next last => exact last
      next => cases walked
  | cons x xs ih =>
    intro a fuel walked enough
    cases fuel with
    | zero => exact absurd enough (Nat.not_lt_zero _)
    | succ fuel =>
      rw [walk] at walked
      split at walked
      next => cases walked
      next =>
        obtain ⟨rfl, rest⟩ := List.cons.inj walked
        exact ⟨rfl, ih rest (Nat.lt_of_succ_lt_succ enough)⟩

theorem Ring.walks (ring : Ring next prev h xs) :
    walk next h (xs.length + 1) (next h) = xs ∧ walk prev h (xs.length + 1) (prev h) = xs.reverse := by
  have apart := (List.nodup_cons.mp ring.nodup).1
  refine ⟨walk_path ring.forward apart (Nat.lt_succ_self _), walk_path ring.backward ?_ ?_⟩
  · rwa [List.mem_reverse]
  · rw [List.length_reverse]
    exact Nat.lt_succ_self _
end
end Mailutils.Circular

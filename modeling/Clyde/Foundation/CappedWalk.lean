import Mathlib.Data.List.Sort

/-!
# Selection with a cap on each group

`walk` goes through a list and keeps an element unless its group has reached the cap, until there is
no room left. `best` goes through a list in the order of its elements. What is kept of some elements
can stand for them among more (`best_append_best`), so the selection can be made in parts, and as
the elements arrive.
-/

set_option autoImplicit false

namespace Clyde.Foundation.CappedWalk

open List Function

structure Rule (α γ : Type) where
  group : α → γ
  /-- How many elements of one group are kept, if there is a limit. -/
  cap : Option ℕ
  room : ℕ
  before : α → α → Prop

variable {α γ : Type} [DecidableEq γ] (rule : Rule α γ)

def Closed (counts : γ → ℕ) (element : α) : Prop :=
  ∃ limit ∈ rule.cap, limit ≤ counts (rule.group element)

instance (counts : γ → ℕ) (element : α) : Decidable (Closed rule counts element) :=
  inferInstanceAs (Decidable (∃ limit ∈ rule.cap, _))

def count (counts : γ → ℕ) (element : α) : γ → ℕ :=
  update counts (rule.group element) (counts (rule.group element) + 1)

def walk : ℕ → (γ → ℕ) → List α → List α
  | 0, _, _ => []
  | _ + 1, _, [] => []
  | room + 1, counts, element :: rest =>
    if Closed rule counts element then walk (room + 1) counts rest
    else element :: walk room (count rule counts element) rest

variable {rule} {counts : γ → ℕ} {element other : α} {elements : List α} {room : ℕ}

@[simp] theorem walk_zero : walk rule 0 counts elements = [] := by cases elements <;> rfl

@[simp] theorem walk_nil : walk rule room counts [] = [] := by cases room <;> rfl

theorem walk_cons_of_closed (hclosed : Closed rule counts element) :
    walk rule room counts (element :: elements) = walk rule room counts elements := by
  cases room with
  | zero => simp
  | succ => rw [walk, if_pos hclosed]

theorem walk_cons_of_open (hopen : ¬Closed rule counts element) :
    walk rule (room + 1) counts (element :: elements) =
      element :: walk rule room (count rule counts element) elements := by
  rw [walk, if_neg hopen]

theorem walk_sublist : walk rule room counts elements <+ elements := by
  induction elements generalizing room counts with
  | nil => simp
  | cons element elements ih =>
    by_cases hclosed : Closed rule counts element
    · rw [walk_cons_of_closed hclosed]
      exact ih.cons element
    cases room with
    | zero => simp
    | succ =>
      rw [walk_cons_of_open hclosed]
      exact ih.cons_cons element

theorem count_comm : count rule (count rule counts element) other =
    count rule (count rule counts other) element := by
  by_cases hsame : rule.group element = rule.group other
  · simp [count, hsame]
  · rw [count, count, count, count, update_of_ne hsame,
      update_of_ne (Ne.symm hsame), update_comm hsame]

theorem Closed.count (hclosed : Closed rule counts element) (other : α) :
    Closed rule (count rule counts other) element := by
  obtain ⟨limit, hlimit, hle⟩ := hclosed
  refine ⟨limit, hlimit, hle.trans ?_⟩
  rw [CappedWalk.count, update_apply]
  split_ifs with hsame
  · rw [hsame]
    exact Nat.le_succ _
  · exact le_rfl

theorem group_eq_of_closed (hopen : ¬Closed rule counts element)
    (hclosed : Closed rule (CappedWalk.count rule counts other) element) :
    rule.group element = rule.group other := by
  by_contra hother
  obtain ⟨limit, hlimit, hle⟩ := hclosed
  rw [CappedWalk.count, update_of_ne hother] at hle
  exact hopen ⟨limit, hlimit, hle⟩

theorem walk_walk : walk rule room counts (walk rule room counts elements) =
    walk rule room counts elements := by
  induction elements generalizing room counts with
  | nil => simp
  | cons element elements ih =>
    by_cases hclosed : Closed rule counts element
    · rw [walk_cons_of_closed hclosed, ih]
    cases room with
    | zero => simp
    | succ => rw [walk_cons_of_open hclosed, walk_cons_of_open hclosed, ih]

/-- With one element counted, and its room taken, a walk needs no element that it would not keep
without it. -/
theorem walk_count_walk :
    walk rule room (count rule counts other) (walk rule (room + 1) counts elements) =
    walk rule room (count rule counts other) elements := by
  induction elements generalizing room counts with
  | nil => simp
  | cons element elements ih =>
    by_cases hclosed : Closed rule counts element
    · rw [walk_cons_of_closed hclosed, walk_cons_of_closed (hclosed.count other), ih]
    rw [walk_cons_of_open hclosed]
    by_cases hnext : Closed rule (count rule counts other) element
    · -- The counted element has closed the group, so both walks go on with the same counts.
      have hcounts : count rule counts element = count rule counts other := by
        rw [count, count, group_eq_of_closed hclosed hnext]
      rw [walk_cons_of_closed hnext, walk_cons_of_closed hnext, hcounts, walk_walk]
    cases room with
    | zero => simp
    | succ => rw [walk_cons_of_open hnext, walk_cons_of_open hnext, count_comm, ih]

/-- A walk that is full ignores what follows. -/
theorem walk_append_of_full (hfull : (walk rule room counts elements).length = room)
    (rest : List α) :
    walk rule room counts (elements ++ rest) = walk rule room counts elements := by
  induction elements generalizing room counts with
  | nil =>
    obtain rfl : room = 0 := by simpa using hfull.symm
    simp
  | cons element elements ih =>
    rw [cons_append]
    by_cases hclosed : Closed rule counts element
    · rw [walk_cons_of_closed hclosed] at hfull ⊢
      rw [walk_cons_of_closed hclosed, ih hfull]
    cases room with
    | zero => simp
    | succ =>
      rw [walk_cons_of_open hclosed, length_cons, Nat.succ_inj] at hfull
      rw [walk_cons_of_open hclosed, walk_cons_of_open hclosed, ih hfull]

variable [DecidableRel rule.before]

variable (rule) in
def best (elements : List α) : List α :=
  walk rule rule.room (fun _ ↦ 0) (elements.insertionSort rule.before)

variable [IsTrans α rule.before]

/-- The elements that are not kept do not matter to one that comes later. -/
theorem walk_orderedInsert (hsorted : elements.Pairwise rule.before) :
    walk rule room counts (elements.orderedInsert rule.before element) =
      walk rule room counts ((walk rule room counts elements).orderedInsert
        rule.before element) := by
  induction elements generalizing room counts with
  | nil => simp
  | cons first rest ih =>
    obtain ⟨hfirst, hrest⟩ := pairwise_cons.mp hsorted
    by_cases hle : rule.before element first
    · have hall : ∀ other ∈ walk rule room counts (first :: rest), rule.before element other := by
        intro other hother
        rcases mem_cons.mp (walk_sublist.subset hother) with rfl | hmem
        · exact hle
        · exact IsTrans.trans _ _ _ hle (hfirst other hmem)
      have hfront : (walk rule room counts (first :: rest)).orderedInsert rule.before element =
          element :: walk rule room counts (first :: rest) := by
        generalize walk rule room counts (first :: rest) = kept at hall
        cases kept with
        | nil => rfl
        | cons other => rw [orderedInsert_cons_of_le _ _ (hall other mem_cons_self)]
      rw [hfront, orderedInsert_cons_of_le _ _ hle]
      by_cases hclosed : Closed rule counts element
      · rw [walk_cons_of_closed hclosed, walk_cons_of_closed hclosed, walk_walk]
      cases room with
      | zero => simp
      | succ => rw [walk_cons_of_open hclosed, walk_cons_of_open hclosed, walk_count_walk]
    · rw [orderedInsert_of_not_le _ _ hle]
      by_cases hclosed : Closed rule counts first
      · rw [walk_cons_of_closed hclosed, walk_cons_of_closed hclosed, ih hrest]
      cases room with
      | zero => simp
      | succ =>
        rw [walk_cons_of_open hclosed, walk_cons_of_open hclosed, orderedInsert_of_not_le _ _ hle,
          walk_cons_of_open hclosed, ih hrest]

variable [Std.Total rule.before]

theorem pairwise_best : (best rule elements).Pairwise rule.before :=
  (pairwise_insertionSort rule.before elements).sublist walk_sublist

theorem best_cons_best :
    best rule (element :: best rule elements) = best rule (element :: elements) := by
  rw [best, insertionSort_cons, pairwise_best.insertionSort_eq, best, best, insertionSort_cons,
    walk_orderedInsert (pairwise_insertionSort rule.before elements)]

theorem best_best : best rule (best rule elements) = best rule elements := by
  rw [best, pairwise_best.insertionSort_eq, best, walk_walk]

theorem best_cons_congr {others : List α} (hbest : best rule elements = best rule others)
    (element : α) :
    best rule (element :: elements) = best rule (element :: others) := by
  rw [← best_cons_best, hbest, best_cons_best]

theorem best_append_best (front : List α) :
    best rule (front ++ best rule elements) = best rule (front ++ elements) := by
  induction front with
  | nil => exact best_best
  | cons element _ ih => exact best_cons_congr ih element

variable [Std.Antisymm rule.before]

theorem best_congr_perm {others : List α} (hperm : elements ~ others) :
    best rule elements = best rule others := by
  have hsorted :=
    (perm_insertionSort rule.before _).trans (hperm.trans (perm_insertionSort rule.before _).symm)
  rw [best, best, hsorted.eq_of_pairwise' (pairwise_insertionSort _ _) (pairwise_insertionSort _ _)]

/-- Every part of the elements may be replaced by what is kept of it. -/
theorem best_flatMap_best {ι : Type} (parts : List ι) (part : ι → List α) :
    best rule (parts.flatMap fun index ↦ best rule (part index)) =
      best rule (parts.flatMap part) := by
  induction parts with
  | nil => rfl
  | cons index parts ih =>
    rw [flatMap_cons, flatMap_cons, ← best_append_best, ih, best_append_best,
      best_congr_perm perm_append_comm, best_append_best, best_congr_perm perm_append_comm]

/-- An element that comes after all of a full selection is not kept. -/
theorem best_cons_of_full (hfull : (best rule elements).length = rule.room)
    (hafter : ∀ kept ∈ best rule elements, rule.before kept element) :
    best rule (element :: elements) = best rule elements := by
  have hsorted : (best rule elements ++ [element]).Pairwise rule.before :=
    pairwise_append.mpr ⟨pairwise_best, pairwise_singleton rule.before element,
      by simpa using hafter⟩
  have hkept : walk rule rule.room (fun _ ↦ 0) (best rule elements) = best rule elements :=
    walk_walk
  rw [← best_cons_best, best_congr_perm (perm_append_singleton element _).symm, best,
    hsorted.insertionSort_eq, walk_append_of_full (hkept.symm ▸ hfull), hkept]

/-- What is not kept among some elements is not kept among more. -/
theorem best_cons_cons (hkept : best rule (element :: elements) = best rule elements)
    (next : α) : best rule (element :: next :: elements) = best rule (next :: elements) := by
  rw [best_congr_perm (.swap next element elements), best_cons_congr hkept]

end Clyde.Foundation.CappedWalk

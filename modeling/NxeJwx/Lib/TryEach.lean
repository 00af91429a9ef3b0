/-
# Search loops that try one candidate after another

A loop walks a list of candidates, skips those it does not consider eligible, tries the
others and stops at the first one that is accepted.  A trial has three outcomes: accepted,
rejected, or failed for an internal reason.  Two flags are carried along: whether any
candidate was eligible, and whether any trial failed.

The point of the file is that the loop, whatever its flags do, decides an existential over
the eligible candidates (`tryEach_hit_iff`), and that when it is not cut short by a hit its
first flag decides whether there was an eligible candidate at all (`tryEach_matched_iff`).
-/
import Mathlib.Data.List.Forall2
import Mathlib.Tactic.Common

namespace TryEach

variable {α β : Type*}

/-- The three outcomes of trying one candidate. -/
inductive Trial where
  | accepted
  | rejected
  | failed
  deriving DecidableEq, Repr

/-- What a search loop knows: was a candidate accepted, was a candidate eligible, did a
trial fail internally. -/
structure Report where
  hit : Bool
  matched : Bool
  failed : Bool
  deriving DecidableEq, Repr

/-- The report before the first candidate. -/
def Report.start : Report := ⟨false, false, false⟩

/-- The loop.  It returns at the first accepted candidate and only sets flags otherwise. -/
def tryEach (eligible : α → Bool) (attempt : α → Trial) : List α → Report → Report
  | [], r => r
  | a :: as, r =>
    if eligible a then
      match attempt a with
      | .accepted => { r with hit := true, matched := true }
      | .rejected => tryEach eligible attempt as { r with matched := true }
      | .failed => tryEach eligible attempt as { r with matched := true, failed := true }
    else
      tryEach eligible attempt as r

variable {eligible : α → Bool} {attempt : α → Trial}

/-! ## 1. What the loop decides -/

/-- The loop ends in a hit exactly when it started with one or some eligible candidate is
accepted.  Candidates that are rejected or fail before it or after it change nothing. -/
theorem tryEach_hit_iff (l : List α) (r : Report) :
    (tryEach eligible attempt l r).hit = true ↔
      r.hit = true ∨ ∃ a ∈ l, eligible a = true ∧ attempt a = .accepted := by
  induction l generalizing r with
  | nil => simp [tryEach]
  | cons a as ih =>
    unfold tryEach
    by_cases he : eligible a = true
    · rw [if_pos he]
      cases ht : attempt a with
      | accepted => simp [he, ht]
      | rejected => simp [ih, ht]
      | failed => simp [ih, ht]
    · rw [if_neg he, ih r]
      simp [he]

/-- The first flag only ever goes up, and it is up when the loop ends exactly when it was up
before or some candidate is eligible. -/
theorem tryEach_matched_iff (l : List α) (r : Report) :
    (tryEach eligible attempt l r).matched = true ↔
      r.matched = true ∨ ∃ a ∈ l, eligible a = true := by
  induction l generalizing r with
  | nil => simp [tryEach]
  | cons a as ih =>
    unfold tryEach
    by_cases he : eligible a = true
    · rw [if_pos he]
      cases ht : attempt a with
      | accepted => simp [he]
      | rejected => simp [ih, he]
      | failed => simp [ih, he]
    · rw [if_neg he, ih r]
      simp [he]

/-- From the start, a hit is an eligible accepted candidate. -/
theorem tryEach_start_hit_iff (l : List α) :
    (tryEach eligible attempt l .start).hit = true ↔
      ∃ a ∈ l, eligible a = true ∧ attempt a = .accepted := by
  simp [tryEach_hit_iff, Report.start]

/-- From the start, the first flag is up when some candidate is eligible. -/
theorem tryEach_start_matched_iff (l : List α) :
    (tryEach eligible attempt l .start).matched = true ↔ ∃ a ∈ l, eligible a = true := by
  simp [tryEach_matched_iff, Report.start]

/-! ## 2. What the loop reads -/

/-- Two loops over lists whose candidates correspond, with the same eligibility and, for the
eligible ones, the same trial, report the same. -/
theorem tryEach_forall₂ {eligible' : β → Bool} {attempt' : β → Trial} {l : List α}
    {l' : List β}
    (h : List.Forall₂ (fun a b => eligible a = eligible' b ∧
      (eligible a = true → attempt a = attempt' b)) l l') :
    ∀ r : Report, tryEach eligible attempt l r = tryEach eligible' attempt' l' r := by
  induction h with
  | nil => intro r; rfl
  | @cons a b as bs hab _ ih =>
    intro r
    obtain ⟨he, ht⟩ := hab
    cases ha : eligible a with
    | true => simp only [tryEach, ← he, ha, ht ha, if_true, ih]
    | false => simp only [tryEach, ← he, ha, Bool.false_eq_true, if_false, ih]

/-- A loop depends on the trials of eligible candidates only. -/
theorem tryEach_congr {attempt' : α → Trial} {l : List α}
    (h : ∀ a ∈ l, eligible a = true → attempt a = attempt' a) (r : Report) :
    tryEach eligible attempt l r = tryEach eligible attempt' l r :=
  tryEach_forall₂ (List.forall₂_same.mpr fun a ha => ⟨rfl, h a ha⟩) r

/-- The first elements that pass a test correspond as well. -/
theorem find_forall₂ {R : α → β → Prop} {p : α → Bool} {q : β → Bool}
    (hpq : ∀ a b, R a b → p a = q b) {l : List α} {l' : List β} (h : List.Forall₂ R l l') :
    Option.Rel R (l.find? p) (l'.find? q) := by
  induction h with
  | nil => exact .none
  | @cons a b as bs hab _ ih =>
    rw [List.find?_cons, List.find?_cons, hpq a b hab]
    cases q b with
    | true => exact .some hab
    | false => exact ih

/-- Related results are both there or both missing. -/
theorem isSome_of_rel {R : α → β → Prop} {a : Option α} {b : Option β} (h : Option.Rel R a b) :
    a.isSome = b.isSome := by
  cases h <;> rfl

end TryEach

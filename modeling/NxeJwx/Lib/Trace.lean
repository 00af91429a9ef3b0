/-
# Computations that leave a trace

A value together with the list of the events on the way to it, oldest first.  Statements about
what a program does, and not only about what it returns, are statements about the list:

* `Only P`: every event satisfies `P`; it goes through `bind` (`Only.bind`);
* `Answered p r`: every event that `p` picks out is followed by one that answers it, as `r` has
  it.  When an answer concerns the same thing as what it answers, this can be read off the events
  of one thing at a time (`answered_iff_forall_filter`).
-/
import Mathlib.Data.List.Basic
import Mathlib.Tactic.Common

universe u

/-- A value, and the events on the way to it. -/
structure Traced (ε α : Type u) where
  val : α
  events : List ε

namespace Traced

variable {ε α β : Type u}

instance : Monad (Traced ε) where
  pure a := ⟨a, []⟩
  bind x f := ⟨(f x.val).val, x.events ++ (f x.val).events⟩

/-- One event. -/
def emit (e : ε) : Traced ε PUnit := ⟨⟨⟩, [e]⟩

@[simp] theorem val_pure (a : α) : (pure a : Traced ε α).val = a := rfl

@[simp] theorem events_pure (a : α) : (pure a : Traced ε α).events = [] := rfl

@[simp] theorem val_bind (x : Traced ε α) (f : α → Traced ε β) :
    (x >>= f).val = (f x.val).val := rfl

@[simp] theorem events_bind (x : Traced ε α) (f : α → Traced ε β) :
    (x >>= f).events = x.events ++ (f x.val).events := rfl

@[simp] theorem events_emit (e : ε) : (emit e).events = [e] := rfl

/-- A choice between two values. -/
theorem ite_pure (c : Prop) [Decidable c] (a b : α) :
    (if c then Pure.pure a else Pure.pure b : Traced ε α) = Pure.pure (if c then a else b) := by
  split <;> rfl

/-- The same computation, its events under other names. -/
def relabel {ε' : Type u} (g : ε → ε') (x : Traced ε α) : Traced ε' α := ⟨x.val, x.events.map g⟩

@[simp] theorem val_relabel {ε' : Type u} (g : ε → ε') (x : Traced ε α) :
    (x.relabel g).val = x.val := rfl

@[simp] theorem events_relabel {ε' : Type u} (g : ε → ε') (x : Traced ε α) :
    (x.relabel g).events = x.events.map g := rfl

/-! ## 1. What every event satisfies -/

/-- Every event satisfies `P`. -/
def Only (P : ε → Prop) (x : Traced ε α) : Prop := ∀ e ∈ x.events, P e

variable {P : ε → Prop}

theorem Only.pure (a : α) : Only P (Pure.pure a : Traced ε α) := fun _ he => absurd he (by simp)

theorem Only.emit {e : ε} (h : P e) : Only P (Traced.emit e) := by
  intro e' he
  rw [events_emit, List.mem_singleton] at he
  exact he ▸ h

theorem Only.bind {x : Traced ε α} {f : α → Traced ε β} (hx : Only P x)
    (hf : Only P (f x.val)) : Only P (x >>= f) := by
  intro e he
  rw [events_bind, List.mem_append] at he
  exact he.elim (hx e) (hf e)

/-- A branch that is taken under a condition may use it. -/
theorem Only.ite {c : Prop} [Decidable c] {x y : Traced ε α} (hx : c → Only P x)
    (hy : ¬ c → Only P y) : Only P (if c then x else y) := by
  split
  next h => exact hx h
  next h => exact hy h

theorem Only.relabel {ε' : Type u} {P : ε' → Prop} {g : ε → ε'} {x : Traced ε α}
    (h : ∀ e ∈ x.events, P (g e)) : Only P (x.relabel g) := by
  intro e he
  obtain ⟨e', he', rfl⟩ := List.mem_map.mp he
  exact h e' he'

/-! ## 2. Events that call for an answer -/

section Answered

variable {κ : Type*} [DecidableEq κ]

/-- Every event that `p` picks out is followed by one that answers it. -/
def Answered (p : ε → Bool) (r : ε → ε → Bool) : List ε → Prop
  | [] => True
  | e :: tr => (p e = true → ∃ e' ∈ tr, r e e' = true) ∧ Answered p r tr

variable {p : ε → Bool} {r : ε → ε → Bool}

instance : ∀ tr : List ε, Decidable (Answered p r tr)
  | [] => inferInstanceAs (Decidable True)
  | e :: tr =>
    have : Decidable (Answered p r tr) := instDecidableAnswered tr
    inferInstanceAs (Decidable ((p e = true → ∃ e' ∈ tr, r e e' = true) ∧ Answered p r tr))

@[simp] theorem answered_nil : Answered p r ([] : List ε) := trivial

@[simp] theorem answered_cons (e : ε) (tr : List ε) :
    Answered p r (e :: tr) ↔ (p e = true → ∃ e' ∈ tr, r e e' = true) ∧ Answered p r tr := Iff.rfl

/-- An event calls for an answer wherever it is in the trace, and the answer comes after it. -/
theorem answered_iff {tr : List ε} :
    Answered p r tr ↔ ∀ before e after, tr = before ++ e :: after → p e = true →
      ∃ e' ∈ after, r e e' = true := by
  induction tr with
  | nil => simp
  | cons e tr ih =>
    rw [answered_cons, ih]
    constructor
    · rintro ⟨he, htr⟩ before e' after heq hp
      cases before with
      | nil =>
        obtain ⟨rfl, rfl⟩ := List.cons.inj heq
        exact he hp
      | cons d before =>
        obtain ⟨-, hrest⟩ := List.cons.inj heq
        exact htr before e' after hrest hp
    · intro h
      exact ⟨h [] e tr rfl, fun before e' after heq hp =>
        h (e :: before) e' after (by rw [heq]; rfl) hp⟩

/-- If every answer is in the same class as what it answers, the classes can be looked at one by
one. -/
theorem answered_iff_forall_filter (g : ε → κ) (hg : ∀ e e', r e e' = true → g e = g e')
    (tr : List ε) :
    Answered p r tr ↔ ∀ k, Answered p r (tr.filter fun e => decide (g e = k)) := by
  induction tr with
  | nil => simp
  | cons e tr ih =>
    rw [answered_cons, ih]
    constructor
    · rintro ⟨he, htr⟩ k
      by_cases hk : g e = k
      · rw [List.filter_cons_of_pos (by simpa using hk), answered_cons]
        refine ⟨?_, htr k⟩
        intro hp
        obtain ⟨e', hmem, hr⟩ := he hp
        have hk' : g e' = k := (hg e e' hr).symm.trans hk
        exact ⟨e', List.mem_filter.mpr ⟨hmem, by simpa using hk'⟩, hr⟩
      · rw [List.filter_cons_of_neg (by simpa using hk)]
        exact htr k
    · intro h
      constructor
      · intro hp
        have hhead := h (g e)
        rw [List.filter_cons_of_pos (by simp), answered_cons] at hhead
        obtain ⟨e', hmem, hr⟩ := hhead.1 hp
        exact ⟨e', (List.mem_filter.mp hmem).1, hr⟩
      · intro k
        have hk := h k
        by_cases hek : g e = k
        · rw [List.filter_cons_of_pos (by simpa using hek), answered_cons] at hk
          exact hk.2
        · rwa [List.filter_cons_of_neg (by simpa using hek)] at hk

end Answered

end Traced

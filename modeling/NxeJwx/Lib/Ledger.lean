/-
# A ledger of resources

What a program does to resources that must be released exactly once: a list of entries, each the
acquisition or the release of a named resource.  `about a` picks the entries on one resource, and
the law is read off them: a resource is `Settled` when there is none, or it was acquired and then
released, and that is all.

`Holds tr held` says where the books stand after `tr`: the resources of `held` are acquired and
not released, every other one is settled.  Each thing that a program does has its rule
(`acquire`, `bounce`, `release`, `releaseAll`); when nothing is held in the end, every resource
is settled (`Holds.settled_all`).
-/
import Mathlib.Data.List.Basic
import Mathlib.Tactic.Common

namespace Ledger

variable {α : Type*} [DecidableEq α]

/-- One entry. -/
inductive Entry (α : Type*) where
  | acquire (a : α)
  | release (a : α)
  deriving DecidableEq, Repr

/-- The resource that an entry is about. -/
def Entry.resource : Entry α → α
  | .acquire a => a
  | .release a => a

/-- The entries on one resource, in order. -/
def about (a : α) (tr : List (Entry α)) : List (Entry α) :=
  tr.filter fun e => decide (e.resource = a)

@[simp] theorem about_nil (a : α) : about a [] = [] := rfl

@[simp] theorem about_append (a : α) (tr tr' : List (Entry α)) :
    about a (tr ++ tr') = about a tr ++ about a tr' := List.filter_append ..

theorem about_cons (a : α) (e : Entry α) (tr : List (Entry α)) :
    about a (e :: tr) = if e.resource = a then e :: about a tr else about a tr := by
  simp [about, List.filter_cons]

@[simp] theorem about_acquire (a : α) (tr : List (Entry α)) :
    about a (.acquire a :: tr) = .acquire a :: about a tr := by
  rw [about_cons, if_pos (show (Entry.acquire a).resource = a from rfl)]

@[simp] theorem about_release (a : α) (tr : List (Entry α)) :
    about a (.release a :: tr) = .release a :: about a tr := by
  rw [about_cons, if_pos (show (Entry.release a).resource = a from rfl)]

theorem about_acquire_ne {a b : α} (h : a ≠ b) (tr : List (Entry α)) :
    about b (.acquire a :: tr) = about b tr := by
  rw [about_cons, if_neg (show (Entry.acquire a).resource ≠ b from h)]

theorem about_release_ne {a b : α} (h : a ≠ b) (tr : List (Entry α)) :
    about b (.release a :: tr) = about b tr := by
  rw [about_cons, if_neg (show (Entry.release a).resource ≠ b from h)]

/-- The resource was never acquired, or it was acquired, released after that, and never touched
again. -/
def Settled (a : α) (tr : List (Entry α)) : Prop :=
  about a tr = [] ∨ about a tr = [.acquire a, .release a]

/-- The books after `tr`: what is acquired and not released. -/
structure Holds (tr : List (Entry α)) (held : List α) : Prop where
  nodup : held.Nodup
  opened : ∀ a ∈ held, about a tr = [.acquire a]
  settled : ∀ a, a ∉ held → Settled a tr

theorem holds_nil : Holds ([] : List (Entry α)) [] where
  nodup := .nil
  opened _ h := absurd h List.not_mem_nil
  settled _ _ := .inl rfl

variable {tr : List (Entry α)} {held : List α} {a : α}

/-- A resource that no entry is about is not held. -/
theorem Holds.not_mem (h : Holds tr held) (ha : about a tr = []) : a ∉ held := fun hm => by
  rw [h.opened a hm] at ha
  exact absurd ha (by simp)

/-- Acquire a new resource, and hold it. -/
theorem Holds.acquire (h : Holds tr held) (ha : about a tr = []) :
    Holds (tr ++ [.acquire a]) (held ++ [a]) := by
  have hnot := h.not_mem ha
  refine ⟨?_, ?_, ?_⟩
  · rw [List.nodup_append]
    refine ⟨h.nodup, by simp, ?_⟩
    intro b hb c hc hbc
    rw [List.mem_singleton] at hc
    exact hnot (hc ▸ hbc ▸ hb)
  · intro b hb
    rw [about_append]
    by_cases hba : b = a
    · rw [hba, ha, about_acquire]
      rfl
    · have hb' : b ∈ held := by simpa [hba] using hb
      rw [about_acquire_ne (Ne.symm hba), h.opened b hb']
      rfl
  · intro b hb
    simp only [List.mem_append, List.mem_singleton, not_or] at hb
    rw [Settled, about_append, about_acquire_ne (Ne.symm hb.2), about_nil, List.append_nil]
    exact h.settled b hb.1

/-- Acquire a new resource and release it on the spot. -/
theorem Holds.bounce (h : Holds tr held) (ha : about a tr = []) :
    Holds (tr ++ [.acquire a, .release a]) held := by
  have hnot := h.not_mem ha
  refine ⟨h.nodup, ?_, ?_⟩
  · intro b hb
    have hba : a ≠ b := fun hab => hnot (hab ▸ hb)
    rw [about_append, about_acquire_ne hba, about_release_ne hba, h.opened b hb]
    rfl
  · intro b hb
    rw [Settled, about_append]
    by_cases hba : a = b
    · subst hba
      rw [ha, about_acquire, about_release]
      exact .inr rfl
    · rw [about_acquire_ne hba, about_release_ne hba, about_nil, List.append_nil]
      exact h.settled b hb

/-- Release the resource that is held first. -/
theorem Holds.release (h : Holds tr (a :: held)) : Holds (tr ++ [.release a]) held := by
  obtain ⟨hnot, hnodup⟩ := List.nodup_cons.mp h.nodup
  refine ⟨hnodup, ?_, ?_⟩
  · intro b hb
    have hba : a ≠ b := fun hab => hnot (hab ▸ hb)
    rw [about_append, about_release_ne hba, h.opened b (List.mem_cons_of_mem _ hb)]
    rfl
  · intro b hb
    rw [Settled, about_append]
    by_cases hba : a = b
    · subst hba
      rw [h.opened a List.mem_cons_self, about_release]
      exact .inr rfl
    · rw [about_release_ne hba, about_nil, List.append_nil]
      exact h.settled b fun hb' => (List.mem_cons.mp hb').elim (fun hab => hba hab.symm) hb

/-- Release everything that is held. -/
theorem Holds.releaseAll (h : Holds tr held) : Holds (tr ++ held.map .release) [] := by
  induction held generalizing tr with
  | nil => simpa using h
  | cons a held ih =>
    rw [List.map_cons, List.append_cons]
    exact ih h.release

/-- When nothing is held, every resource is settled. -/
theorem Holds.settled_all (h : Holds tr []) (a : α) : Settled a tr :=
  h.settled a List.not_mem_nil

end Ledger

/-
# Resources in custody

A program made of parts that each keep a ledger of their own, over names of their own, and that
use what they acquired in between.  An act is an entry in the ledger of the whole program or a
use.  `Custody tr held` says that after `tr` exactly the resources of `held` are acquired and not
released, and that each use so far was of a resource that was held at the time (`UsedInTime`).

* The ledger of a part goes into that of the whole under a renaming (`Holds.append_renamed`),
  which must be injective and name nothing that is there already.
* The order in which resources are held does not matter (`Holds.perm`), so any part of them can
  be released at any time (`Holds.releaseFirst`).
* What is held may be used (`Custody.uses`); entries add no use (`Custody.enter`).
-/
import Mathlib.Data.List.Nodup
import NxeJwx.Lib.Ledger

namespace Ledger

variable {α β : Type*}

/-! ## 1. Acts -/

/-- An entry in the ledger, or the use of a resource. -/
inductive Act (α : Type*) where
  | enter (e : Entry α)
  | use (a : α)
  deriving DecidableEq, Repr

/-- The ledger of a trace. -/
def entries (tr : List (Act α)) : List (Entry α) :=
  tr.filterMap fun
    | .enter e => some e
    | .use _ => none

@[simp] theorem entries_nil : entries ([] : List (Act α)) = [] := rfl

@[simp] theorem entries_append (tr tr' : List (Act α)) :
    entries (tr ++ tr') = entries tr ++ entries tr' := List.filterMap_append ..

@[simp] theorem entries_enter (es : List (Entry α)) : entries (es.map .enter) = es := by
  induction es with
  | nil => rfl
  | cons e es ih => exact congrArg (e :: ·) ih

@[simp] theorem entries_use (as : List α) : entries (as.map .use) = [] := by
  induction as with
  | nil => rfl
  | cons a as ih => exact ih

/-! ## 2. Renaming -/

/-- The same entry about a renamed resource. -/
def Entry.map (f : α → β) : Entry α → Entry β
  | .acquire a => .acquire (f a)
  | .release a => .release (f a)

@[simp] theorem Entry.resource_map (f : α → β) (e : Entry α) :
    (e.map f).resource = f e.resource := by
  cases e <;> rfl

variable [DecidableEq β]

/-- A renamed ledger has no entry on other names. -/
theorem about_map_other {f : α → β} {b : β} (hb : ∀ a, f a ≠ b) (tr : List (Entry α)) :
    about b (tr.map (Entry.map f)) = [] := by
  induction tr with
  | nil => rfl
  | cons e tr ih =>
    rw [List.map_cons, about_cons, ih, Entry.resource_map, if_neg (hb e.resource)]

variable [DecidableEq α]

/-- Under an injective renaming the entries on a resource are those on its new name. -/
theorem about_map {f : α → β} (hf : Function.Injective f) (a : α) (tr : List (Entry α)) :
    about (f a) (tr.map (Entry.map f)) = (about a tr).map (Entry.map f) := by
  induction tr with
  | nil => rfl
  | cons e tr ih =>
    rw [List.map_cons, about_cons, about_cons, ih, Entry.resource_map]
    by_cases h : e.resource = a
    · rw [if_pos (congrArg f h), if_pos h, List.map_cons]
    · rw [if_neg (fun hfa => h (hf hfa)), if_neg h]

/-- A ledger without entries on a resource. -/
theorem about_eq_nil {a : α} {tr : List (Entry α)} (h : ∀ e ∈ tr, e.resource ≠ a) :
    about a tr = [] := by
  rw [about, List.filter_eq_nil_iff]
  intro e he
  simpa using h e he

/-- Settled resources are settled under their new names. -/
theorem Settled.renamed {f : α → β} (hf : Function.Injective f) {a : α} {tr : List (Entry α)}
    (h : Settled a tr) : Settled (f a) (tr.map (Entry.map f)) := by
  unfold Settled at h ⊢
  rw [about_map hf]
  rcases h with h | h
  · exact .inl (by rw [h]; rfl)
  · exact .inr (by rw [h]; rfl)

/-- The ledger of a part, entered under new names into the ledger of the whole. -/
theorem Holds.append_renamed {f : α → β} (hf : Function.Injective f) {tr : List (Entry β)}
    {held : List β} {tr' : List (Entry α)} {held' : List α} (h : Holds tr held)
    (hnew : ∀ a, about (f a) tr = []) (h' : Holds tr' held') :
    Holds (tr ++ tr'.map (Entry.map f)) (held ++ held'.map f) := by
  have hother : ∀ b ∈ held, ∀ a, f a ≠ b := fun b hb a hab => h.not_mem (hab ▸ hnew a) hb
  refine ⟨?_, ?_, ?_⟩
  · refine List.nodup_append.mpr ⟨h.nodup, List.Nodup.map hf h'.nodup, ?_⟩
    intro b hb c hc hbc
    obtain ⟨a, -, rfl⟩ := List.mem_map.mp hc
    exact hother b hb a hbc.symm
  · intro b hb
    rw [about_append]
    rcases List.mem_append.mp hb with hb | hb
    · rw [h.opened b hb, about_map_other (hother b hb), List.append_nil]
    · obtain ⟨a, ha, rfl⟩ := List.mem_map.mp hb
      rw [hnew a, about_map hf, h'.opened a ha]
      rfl
  · intro b hb
    rw [List.mem_append, not_or] at hb
    by_cases hrange : ∃ a, f a = b
    · obtain ⟨a, rfl⟩ := hrange
      have ha : a ∉ held' := fun ha => hb.2 (List.mem_map_of_mem ha)
      have hsettled := (h'.settled a ha).renamed hf
      unfold Settled at hsettled ⊢
      rwa [about_append, hnew a, List.nil_append]
    · have hb' : ∀ a, f a ≠ b := fun a hab => hrange ⟨a, hab⟩
      have hsettled := h.settled b hb.1
      unfold Settled at hsettled ⊢
      rwa [about_append, about_map_other hb', List.append_nil]

/-! ## 3. Releasing some of what is held -/

section Held

variable {tr : List (Entry α)} {held held' : List α}

/-- The order does not matter. -/
theorem Holds.perm (h : Holds tr held) (hp : held.Perm held') : Holds tr held' where
  nodup := hp.nodup_iff.mp h.nodup
  opened a ha := h.opened a (hp.mem_iff.mpr ha)
  settled a ha := h.settled a fun ha' => ha (hp.mem_iff.mp ha')

/-- Release the first part of what is held. -/
theorem Holds.releaseFirst (h : Holds tr (held ++ held')) :
    Holds (tr ++ held.map .release) held' := by
  induction held generalizing tr with
  | nil => simpa using h
  | cons a held ih =>
    rw [List.map_cons, List.append_cons]
    exact ih h.release

end Held

/-! ## 4. Uses -/

/-- Each use is of a resource that was acquired before, once, and not released by then. -/
def UsedInTime (tr : List (Act α)) : Prop :=
  ∀ before a after, tr = before ++ .use a :: after → about a (entries before) = [.acquire a]

/-- Where a resource stands after a trace, and that no use was too early or too late. -/
structure Custody (tr : List (Act α)) (held : List α) : Prop where
  holds : Holds (entries tr) held
  inTime : UsedInTime tr

section Custody

variable {tr : List (Act α)} {held held' : List α}

theorem custody_nil : Custody ([] : List (Act α)) [] where
  holds := holds_nil
  inTime before a after h := absurd h (by simp)

theorem Custody.perm (h : Custody tr held) (hp : held.Perm held') : Custody tr held' :=
  ⟨h.holds.perm hp, h.inTime⟩

/-- A use in a longer trace is one of the old uses or one of the new. -/
theorem UsedInTime.append {tr' : List (Act α)} (h : UsedInTime tr)
    (h' : ∀ before a after, tr' = before ++ .use a :: after →
      about a (entries (tr ++ before)) = [.acquire a]) : UsedInTime (tr ++ tr') := by
  intro before a after heq
  rcases List.append_eq_append_iff.mp heq with ⟨mid, rfl, hmid⟩ | ⟨mid, rfl, hmid⟩
  · exact h' mid a after hmid
  · cases mid with
    | nil =>
      have hnil := h' [] a after hmid.symm
      simpa using hnil
    | cons e mid =>
      obtain ⟨rfl, -⟩ := List.cons.inj hmid
      exact h before a mid rfl

/-- Entries make no use. -/
theorem Custody.enter {es : List (Entry α)} (h : Custody tr held)
    (h' : Holds (entries tr ++ es) held') : Custody (tr ++ es.map .enter) held' where
  holds := by rwa [entries_append, entries_enter]
  inTime := by
    refine h.inTime.append ?_
    intro before a after heq
    have hmem : (Act.use a : Act α) ∈ es.map .enter := by rw [heq]; simp
    obtain ⟨e, -, he⟩ := List.mem_map.mp hmem
    exact absurd he (by simp)

/-- What is held may be used. -/
theorem Custody.uses {as : List α} (h : Custody tr held) (has : ∀ a ∈ as, a ∈ held) :
    Custody (tr ++ as.map .use) held where
  holds := by
    rw [entries_append, entries_use, List.append_nil]
    exact h.holds
  inTime := by
    refine h.inTime.append ?_
    intro before a after heq
    obtain ⟨as₁, as₂, rfl, rfl, htail⟩ := List.map_eq_append_iff.mp heq
    obtain ⟨a', as₃, rfl, ha', -⟩ := List.map_eq_cons_iff.mp htail
    obtain rfl : a' = a := Act.use.inj ha'
    rw [entries_append, entries_use, List.append_nil]
    exact h.holds.opened a' (has a' (by simp))

end Custody

end Ledger

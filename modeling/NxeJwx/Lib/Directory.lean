/-
# Requests against a labelled directory

A directory is a set of items, each under a label or under none.  A request may name a label:
the items under it may then serve the request, or, where nothing is under it, the items without
a label; a request that names no label may be served by every item.

The judgement (`Admits`) reads labels and tests only, so it may be asked of the images of the
items instead (`admits_image_iff`), and a directory of labelled items never falls back
(`admits_iff_of_labelled`).
-/
import Mathlib.Data.Set.Image

namespace Directory

variable {P Q L : Type*}

/-- The item `p` may serve a request for `want`. -/
structure Selects (S : Set P) (label : P → Option L) (want : Option L) (p : P) : Prop where
  mem : p ∈ S
  labelled : ∀ l, want = some l → (∃ q ∈ S, label q = some l) → label p = some l
  unlabelled : ∀ l, want = some l → (∀ q ∈ S, label q ≠ some l) → label p = none

/-- Some item that may serve the request passes the test. -/
def Admits (S : Set P) (label : P → Option L) (want : Option L) (ok : P → Prop) : Prop :=
  ∃ p, Selects S label want p ∧ ok p

/-- An image may serve a request when one of its items may. -/
theorem selects_image_iff {f : P → Q} {S : Set P} {label : Q → Option L} {want : Option L}
    {p : P} (hp : p ∈ S) :
    Selects (f '' S) label want (f p) ↔ Selects S (fun q => label (f q)) want p := by
  constructor
  · intro h
    refine ⟨hp, ?_, ?_⟩
    · rintro l hw ⟨q, hq, hl⟩
      exact h.labelled l hw ⟨f q, Set.mem_image_of_mem f hq, hl⟩
    · intro l hw hl
      refine h.unlabelled l hw ?_
      rintro - ⟨q, hq, rfl⟩
      exact hl q hq
  · intro h
    refine ⟨Set.mem_image_of_mem f hp, ?_, ?_⟩
    · rintro l hw ⟨-, ⟨q, hq, rfl⟩, hl⟩
      exact h.labelled l hw ⟨q, hq, hl⟩
    · intro l hw hl
      exact h.unlabelled l hw fun q hq => hl (f q) (Set.mem_image_of_mem f hq)

/-- A directory admits a request exactly when it does as seen through a map that keeps labels and
tests. -/
theorem admits_image_iff {f : P → Q} {S : Set P} {label : Q → Option L} {want : Option L}
    {ok : Q → Prop} :
    Admits (f '' S) label want ok ↔ Admits S (fun p => label (f p)) want fun p => ok (f p) := by
  constructor
  · rintro ⟨q, hq, hok⟩
    obtain ⟨p, hp, rfl⟩ := hq.mem
    exact ⟨p, (selects_image_iff hp).mp hq, hok⟩
  · rintro ⟨p, hp, hok⟩
    exact ⟨f p, (selects_image_iff hp.mem).mpr hp, hok⟩

/-- Where every item is under a label there is no fallback: an item serves the requests for its
label and those that name none. -/
theorem admits_iff_of_labelled {S : Set P} {label : P → Option L}
    (h : ∀ p ∈ S, label p ≠ none) {want : Option L} {ok : P → Prop} :
    Admits S label want ok ↔ ∃ p ∈ S, (∀ l, want = some l → label p = some l) ∧ ok p := by
  constructor
  · rintro ⟨p, hp, hok⟩
    refine ⟨p, hp.mem, ?_, hok⟩
    intro l hw
    by_cases hl : ∃ q ∈ S, label q = some l
    · exact hp.labelled l hw hl
    · refine absurd (hp.unlabelled l hw ?_) (h p hp.mem)
      intro q hq hlq
      exact hl ⟨q, hq, hlq⟩
  · rintro ⟨p, hp, hlabel, hok⟩
    refine ⟨p, ⟨hp, fun l hw _ => hlabel l hw, ?_⟩, hok⟩
    intro l hw hl
    exact absurd (hlabel l hw) (hl p hp)

end Directory

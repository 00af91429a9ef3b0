/-
# A loop that fills an array of slots

The loop walks a list of inputs and writes into the first free slot of a fixed array BEFORE
it knows whether the input counts.  Each step reads the slot it is given, leaves something
in it, and says one of three things: keep it (the slot becomes used), skip it (the next
input gets the same slot again), or abort the whole loop.  So a slot can be handed out
several times, with whatever the earlier steps left behind.

The file states when this reuse leaves no trace.  If what a step decides and what it keeps
depends on the input alone, as long as the slot it is given is `clean`, and a skipping step
leaves the slot clean (`Regular`), then from an array whose free slots are clean
(`Ready`) the used slots at the end are exactly the kept values in input order
(`fill_done`), and the loop aborts when some input does (`fill_aborted`); so no step is ever
handed a slot past the end of the array (`fill_blank`).

Apart from any such condition, a loop that starts with a free slot for each of its inputs has
one at every turn (`reaches_room`).
-/
import Mathlib.Data.List.Basic
import Mathlib.Data.List.Forall2
import Mathlib.Logic.Relation
import Mathlib.Tactic.Common

namespace FillSlots

variable {ι κ : Type*}

/-! ## 1. The loop -/

/-- What one step decides about its input. -/
inductive Outcome where
  | keep
  | skip
  | abort
  deriving DecidableEq, Repr

/-- An array of slots, of which the first `count` are used. -/
structure Slots (κ : Type*) where
  cells : List κ
  count : Nat
  deriving DecidableEq, Repr

namespace Slots

/-- The used slots. -/
def filled (s : Slots κ) : List κ := s.cells.take s.count

/-- Overwrite the first free slot, without using it up. -/
def put (s : Slots κ) (k : κ) : Slots κ := { s with cells := s.cells.set s.count k }

/-- Use up the first free slot. -/
def bump (s : Slots κ) : Slots κ := { s with count := s.count + 1 }

/-- `n` slots holding `blank`, none of them used. -/
def blank (n : Nat) (b : κ) : Slots κ := ⟨List.replicate n b, 0⟩

@[simp] theorem count_put (s : Slots κ) (k : κ) : (s.put k).count = s.count := rfl

@[simp] theorem count_bump (s : Slots κ) : s.bump.count = s.count + 1 := rfl

@[simp] theorem cells_bump (s : Slots κ) : s.bump.cells = s.cells := rfl

@[simp] theorem length_put (s : Slots κ) (k : κ) :
    (s.put k).cells.length = s.cells.length := by simp [put]

@[simp] theorem filled_put (s : Slots κ) (k : κ) : (s.put k).filled = s.filled := by
  simp [filled, put, List.take_set_of_le]

@[simp] theorem filled_blank (n : Nat) (b : κ) : (blank n b).filled = [] := by
  simp [filled, blank]

/-- Writing a free slot and using it up appends to the used slots. -/
theorem filled_put_bump {s : Slots κ} (h : s.count < s.cells.length) (k : κ) :
    (s.put k).bump.filled = s.filled ++ [k] := by
  have hlen : s.count < (s.cells.set s.count k).length := by simpa using h
  simp only [filled, bump, put]
  rw [List.take_add_one, List.getElem?_eq_getElem hlen, List.take_set_of_le (Nat.le_refl _)]
  simp

end Slots

/-- How a run of the loop ends: with the slots as they are, with the slots as they were when
a step aborted, or by stepping past the end of the array. -/
inductive Run (κ : Type*) where
  | done (s : Slots κ)
  | aborted (s : Slots κ)
  | overrun
  deriving DecidableEq, Repr

/-- The loop.  `full` is an early exit on the number of used slots. -/
def fill (full : Nat → Bool) (step : ι → κ → Outcome × κ) : List ι → Slots κ → Run κ
  | [], s => .done s
  | i :: is, s =>
    if full s.count then .done s
    else
      match s.cells[s.count]? with
      | none => .overrun
      | some cell =>
        match step i cell with
        | (.keep, k) => fill full step is (s.put k).bump
        | (.skip, k) => fill full step is (s.put k)
        | (.abort, k) => .aborted (s.put k)

/-! ## 2. When reuse leaves no trace -/

/-- A step whose decision and whose kept value depend on the input alone, provided the slot
it is given is clean; and which leaves the slot clean when it skips. -/
structure Regular (clean : κ → Prop) (step : ι → κ → Outcome × κ) (out : ι → Outcome)
    (val : ι → κ) : Prop where
  outcome : ∀ i k, clean k → (step i k).1 = out i
  kept : ∀ i k, clean k → out i = .keep → (step i k).2 = val i
  skipped : ∀ i k, clean k → out i = .skip → clean (step i k).2

/-- The loop invariant: there is room for the `n` inputs still to come, and every free slot
is clean. -/
structure Ready (clean : κ → Prop) (s : Slots κ) (n : Nat) : Prop where
  room : s.count + n ≤ s.cells.length
  free : ∀ c ∈ s.cells.drop s.count, clean c

/-- The values the loop keeps, in input order. -/
def keptOf (out : ι → Outcome) (val : ι → κ) (is : List ι) : List κ :=
  (is.filter fun i => out i = .keep).map val

theorem keptOf_cons_keep {out : ι → Outcome} {val : ι → κ} {i : ι} (h : out i = .keep)
    (is : List ι) : keptOf out val (i :: is) = val i :: keptOf out val is := by
  simp [keptOf, h]

theorem keptOf_cons_skip {out : ι → Outcome} {val : ι → κ} {i : ι} (h : out i ≠ .keep)
    (is : List ι) : keptOf out val (i :: is) = keptOf out val is := by
  simp [keptOf, h]

theorem mem_keptOf {out : ι → Outcome} {val : ι → κ} {is : List ι} {k : κ} :
    k ∈ keptOf out val is ↔ ∃ i ∈ is, out i = .keep ∧ val i = k := by
  simp [keptOf, and_assoc]

variable {clean : κ → Prop} {full : Nat → Bool} {step : ι → κ → Outcome × κ}
  {out : ι → Outcome} {val : ι → κ}

theorem ready_blank {n m : Nat} {b : κ} (hb : clean b) (h : m ≤ n) :
    Ready clean (Slots.blank n b) m := by
  refine ⟨by simpa [Slots.blank] using h, ?_⟩
  intro c hc
  simp only [Slots.blank, List.drop_zero] at hc
  rw [List.eq_of_mem_replicate hc]
  exact hb

/-- There is a slot for the next step. -/
theorem Ready.lt {s : Slots κ} {n : Nat} (h : Ready clean s (n + 1)) :
    s.count < s.cells.length := by
  have hroom := h.room
  omega

/-- The slot handed to the next step is clean. -/
theorem Ready.cell {s : Slots κ} {n : Nat} (h : Ready clean s (n + 1)) :
    ∃ c, s.cells[s.count]? = some c ∧ clean c := by
  have hlt := h.lt
  refine ⟨s.cells[s.count], List.getElem?_eq_getElem hlt, h.free _ ?_⟩
  rw [List.drop_eq_getElem_cons hlt]
  exact List.mem_cons_self

/-- Keeping preserves the invariant: the slot leaves the free part. -/
theorem Ready.keep {s : Slots κ} {n : Nat} (h : Ready clean s (n + 1)) (k : κ) :
    Ready clean (s.put k).bump n := by
  have hroom := h.room
  refine ⟨by simp only [Slots.count_bump, Slots.count_put, Slots.cells_bump,
    Slots.length_put]; omega, ?_⟩
  intro c hc
  simp only [Slots.bump, Slots.put] at hc
  rw [List.drop_set_of_lt (Nat.lt_succ_self _)] at hc
  exact h.free c (List.drop_subset_drop_left _ (Nat.le_succ _) hc)

/-- Skipping preserves the invariant: the slot goes back clean. -/
theorem Ready.skip {s : Slots κ} {n : Nat} (h : Ready clean s (n + 1)) {k : κ}
    (hk : clean k) : Ready clean (s.put k) n := by
  have hroom := h.room
  refine ⟨by simp only [Slots.count_put, Slots.length_put]; omega, ?_⟩
  intro c hc
  simp only [Slots.put] at hc
  have hlt : s.count < (s.cells.set s.count k).length := by simp; omega
  rw [List.drop_eq_getElem_cons hlt] at hc
  rcases List.mem_cons.mp hc with rfl | hc
  · simpa using hk
  · rw [List.drop_set_of_lt (Nat.lt_succ_self _)] at hc
    exact h.free c (List.drop_subset_drop_left _ (Nat.le_succ _) hc)

/-! ## 3. One step, and a whole run -/

/-- One step of the loop, by what it decides about its input. -/
theorem fill_cons (hr : Regular clean step out val) {s : Slots κ} {i : ι} {is : List ι}
    (hs : Ready clean s (is.length + 1)) (hf : full s.count = false) :
    (out i = .keep ∧ fill full step (i :: is) s = fill full step is (s.put (val i)).bump) ∨
    (out i = .skip ∧ ∃ k, clean k ∧ fill full step (i :: is) s = fill full step is (s.put k)) ∨
    (out i = .abort ∧ ∃ k, fill full step (i :: is) s = .aborted (s.put k)) := by
  obtain ⟨c, hc, hcl⟩ := hs.cell
  have ho := hr.outcome i c hcl
  rw [fill, hf, hc]
  simp only [Bool.false_eq_true, if_false]
  cases hst : step i c with
  | mk o k =>
    rw [hst] at ho
    cases o with
    | keep =>
      have hk := hr.kept i c hcl ho.symm
      rw [hst] at hk
      exact .inl ⟨ho.symm, by rw [← hk]⟩
    | skip =>
      have hk := hr.skipped i c hcl ho.symm
      rw [hst] at hk
      exact .inr (.inl ⟨ho.symm, k, hk, rfl⟩)
    | abort => exact .inr (.inr ⟨ho.symm, k, rfl⟩)

/-- If no input aborts, the loop runs to its end and the used slots are the ones it started
with followed by the kept values, in order. -/
theorem fill_done (hr : Regular clean step out val) (is : List ι) (s : Slots κ)
    (hs : Ready clean s is.length) (hf : ∀ n < s.cells.length, full n = false)
    (ha : ∀ i ∈ is, out i ≠ .abort) :
    ∃ s', fill full step is s = .done s' ∧ s'.filled = s.filled ++ keptOf out val is ∧
      s'.cells.length = s.cells.length ∧ s'.count = s.count + (keptOf out val is).length := by
  induction is generalizing s with
  | nil => exact ⟨s, rfl, by simp [keptOf], rfl, by simp [keptOf]⟩
  | cons i is ih =>
    have hlt := hs.lt
    have hais : ∀ j ∈ is, out j ≠ .abort := fun j hj => ha j (List.mem_cons_of_mem _ hj)
    rcases fill_cons hr hs (hf _ hlt) with ⟨ho, he⟩ | ⟨ho, k, hk, he⟩ | ⟨ho, -⟩
    · obtain ⟨s', h1, h2, h3, h4⟩ := ih (s.put (val i)).bump (hs.keep _) (by simpa using hf) hais
      refine ⟨s', he.trans h1, ?_, by simpa using h3, ?_⟩
      · rw [h2, Slots.filled_put_bump hlt, keptOf_cons_keep ho, List.append_assoc,
          List.singleton_append]
      · rw [h4, keptOf_cons_keep ho]
        simp only [Slots.count_bump, Slots.count_put, List.length_cons]
        omega
    · obtain ⟨s', h1, h2, h3, h4⟩ := ih (s.put k) (hs.skip hk) (by simpa using hf) hais
      have hne : out i ≠ .keep := by rw [ho]; decide
      refine ⟨s', he.trans h1, ?_, by simpa using h3, ?_⟩
      · rw [h2, Slots.filled_put, keptOf_cons_skip hne]
      · rw [h4, keptOf_cons_skip hne, Slots.count_put]
    · exact absurd ho (ha i List.mem_cons_self)

/-- If some input aborts, so does the loop: no early exit hides it. -/
theorem fill_aborted (hr : Regular clean step out val) (is : List ι) (s : Slots κ)
    (hs : Ready clean s is.length) (hf : ∀ n < s.cells.length, full n = false)
    (ha : ∃ i ∈ is, out i = .abort) : ∃ s', fill full step is s = .aborted s' := by
  induction is generalizing s with
  | nil =>
    obtain ⟨i, hi, -⟩ := ha
    exact absurd hi List.not_mem_nil
  | cons i is ih =>
    -- an input that does not abort leaves the aborting one to come
    have later : out i ≠ .abort → ∃ j ∈ is, out j = .abort := by
      intro hi
      obtain ⟨j, hj, hja⟩ := ha
      rcases List.mem_cons.mp hj with rfl | hj
      · exact absurd hja hi
      · exact ⟨j, hj, hja⟩
    rcases fill_cons hr hs (hf _ hs.lt) with ⟨ho, he⟩ | ⟨ho, k, hk, he⟩ | ⟨-, k, he⟩
    · obtain ⟨s', h⟩ := ih (s.put (val i)).bump (hs.keep _) (by simpa using hf)
        (later (by rw [ho]; decide))
      exact ⟨s', he.trans h⟩
    · obtain ⟨s', h⟩ := ih (s.put k) (hs.skip hk) (by simpa using hf)
        (later (by rw [ho]; decide))
      exact ⟨s', he.trans h⟩
    · exact ⟨_, he⟩

/-- The run from `n` blank slots over at most `n` inputs, in one statement. -/
theorem fill_blank (full : Nat → Bool) (hr : Regular clean step out val) {n : Nat} {b : κ}
    (hb : clean b) {is : List ι} (hn : is.length ≤ n) (hf : ∀ m < n, full m = false) :
    ((∃ i ∈ is, out i = .abort) ∧ ∃ s', fill full step is (.blank n b) = .aborted s') ∨
    ((∀ i ∈ is, out i ≠ .abort) ∧ ∃ s', fill full step is (.blank n b) = .done s' ∧
      s'.filled = keptOf out val is ∧ s'.cells.length = n ∧
      s'.count = (keptOf out val is).length) := by
  have hready : Ready clean (Slots.blank n b) is.length := ready_blank hb hn
  have hfull : ∀ m < (Slots.blank n b).cells.length, full m = false := by
    simpa [Slots.blank] using hf
  by_cases ha : ∃ i ∈ is, out i = .abort
  · exact .inl ⟨ha, fill_aborted hr is _ hready hfull ha⟩
  · have ha' : ∀ i ∈ is, out i ≠ .abort := fun i hi h => ha ⟨i, hi, h⟩
    obtain ⟨s', h1, h2, h3, h4⟩ := fill_done hr is _ hready hfull ha'
    refine .inr ⟨ha', s', h1, by simpa using h2, by simpa [Slots.blank] using h3, ?_⟩
    simpa [Slots.blank] using h4

/-! ## 4. What a run amounts to -/

/-- The result of inputs that are looked at one by one, from what each decides and gives:
nothing when one of them aborts or none is kept, and otherwise the kept values, in order. -/
def gather (rs : List (Outcome × κ)) : Option (List κ) :=
  if rs.any fun r => r.1 == .abort then none
  else
    match rs.filter fun r => r.1 == .keep with
    | [] => none
    | kept => some (kept.map Prod.snd)

theorem gather_eq_none_iff {rs : List (Outcome × κ)} :
    gather rs = none ↔ (∃ r ∈ rs, r.1 = .abort) ∨ ∀ r ∈ rs, r.1 ≠ .keep := by
  have hany : (rs.any fun r => r.1 == .abort) = true ↔ ∃ r ∈ rs, r.1 = .abort := by
    simp [List.any_eq_true]
  have hnil : (rs.filter fun r => r.1 == .keep) = [] ↔ ∀ r ∈ rs, r.1 ≠ .keep := by
    simp [List.filter_eq_nil_iff]
  rw [← hany, ← hnil]
  unfold gather
  split
  · next h => simp [h]
  · next h =>
    split
    · next hk => simp [hk]
    · next hne => simpa [h] using hne

theorem gather_eq_some_iff {rs : List (Outcome × κ)} {ks : List κ} :
    gather rs = some ks ↔ (∀ r ∈ rs, r.1 ≠ .abort) ∧ ks ≠ [] ∧
      ks = (rs.filter fun r => r.1 == .keep).map Prod.snd := by
  constructor
  · intro h
    have hne : gather rs ≠ none := by simp [h]
    rw [ne_eq, gather_eq_none_iff, not_or] at hne
    unfold gather at h
    split at h
    · exact absurd h (by simp)
    split at h
    · exact absurd h (by simp)
    next hkept =>
    obtain rfl := Option.some.inj h
    exact ⟨fun r hr ha => hne.1 ⟨r, hr, ha⟩, fun hnil => hkept (List.map_eq_nil_iff.mp hnil), rfl⟩
  · rintro ⟨hab, hne, rfl⟩
    have hnil : (rs.filter fun r => r.1 == .keep) ≠ [] := fun h => hne (by rw [h]; rfl)
    have hany : (rs.any fun r => r.1 == .abort) = false := by
      rw [Bool.eq_false_iff]
      intro h
      obtain ⟨r, hr, ha⟩ := List.any_eq_true.mp h
      exact hab r hr (beq_iff_eq.mp ha)
    unfold gather
    rw [hany, if_neg (by decide)]
    split
    · next h => exact absurd h hnil
    · rfl

/-- Two results are the same when each is missing together with the other, and they agree where
they are there. -/
theorem gather_congr {rs rs' : List (Outcome × κ)}
    (hab : (∃ r ∈ rs, r.1 = .abort) ↔ ∃ r ∈ rs', r.1 = .abort)
    (hkeep : (rs.filter fun r => r.1 == .keep) = rs'.filter fun r => r.1 == .keep) :
    gather rs = gather rs' := by
  have hany : (rs.any fun r => r.1 == .abort) = rs'.any fun r => r.1 == .abort := by
    rw [Bool.eq_iff_iff]
    simpa [List.any_eq_true] using hab
  unfold gather
  rw [hany, hkeep]

/-- Inputs that are skipped can be put in or left out. -/
theorem gather_skip {rs rs' : List (Outcome × κ)}
    (h : (rs.filter fun r => r.1 != .skip) = rs'.filter fun r => r.1 != .skip) :
    gather rs = gather rs' := by
  have hsub : ∀ l : List (Outcome × κ), (l.filter fun r => r.1 == .keep) =
      (l.filter fun r => r.1 != .skip).filter fun r => r.1 == .keep := by
    intro l
    rw [List.filter_filter]
    refine List.filter_congr ?_
    intro r _
    cases r.1 <;> rfl
  have hmem : ∀ l : List (Outcome × κ), (∃ r ∈ l, r.1 = .abort) ↔
      ∃ r ∈ l.filter fun r => r.1 != .skip, r.1 = .abort := by
    intro l
    constructor
    · rintro ⟨r, hr, ha⟩
      exact ⟨r, List.mem_filter.mpr ⟨hr, by rw [ha]; rfl⟩, ha⟩
    · rintro ⟨r, hr, ha⟩
      exact ⟨r, (List.mem_filter.mp hr).1, ha⟩
  refine gather_congr ?_ ?_
  · rw [hmem rs, hmem rs', h]
  · rw [hsub rs, hsub rs', h]

/-- The order of the inputs is the order of the kept values, and nothing else. -/
theorem gather_perm {rs rs' : List (Outcome × κ)} (h : rs.Perm rs') :
    (gather rs = none ↔ gather rs' = none) ∧
      ∀ ks ks', gather rs = some ks → gather rs' = some ks' → ks.Perm ks' := by
  constructor
  · simp only [gather_eq_none_iff, h.mem_iff]
  · intro ks ks' hks hks'
    obtain ⟨-, -, rfl⟩ := gather_eq_some_iff.mp hks
    obtain ⟨-, -, rfl⟩ := gather_eq_some_iff.mp hks'
    exact (h.filter _).map _

/-- The kept values of a list of inputs, by what each input decides and gives. -/
theorem keptOf_eq_filter (out : ι → Outcome) (val : ι → κ) (is : List ι) :
    keptOf out val is = ((is.map fun i => (out i, val i)).filter fun r => r.1 == .keep).map
      Prod.snd := by
  induction is with
  | nil => rfl
  | cons i is ih =>
    by_cases ho : out i = .keep
    · rw [keptOf_cons_keep ho, ih]
      simp [ho]
    · rw [keptOf_cons_skip ho, ih]
      simp [ho]

/-- Steps that keep the same inputs, with related values, keep related lists. -/
theorem forall₂_keptOf {R : κ → κ → Prop} {out' : ι → Outcome} {val' : ι → κ} {is : List ι}
    (hout : ∀ i ∈ is, out i = out' i) (hval : ∀ i ∈ is, out i = .keep → R (val i) (val' i)) :
    List.Forall₂ R (keptOf out val is) (keptOf out' val' is) := by
  induction is with
  | nil => exact .nil
  | cons i is ih =>
    have ih := ih (fun j hj => hout j (List.mem_cons_of_mem i hj))
      fun j hj => hval j (List.mem_cons_of_mem i hj)
    have hi := hout i List.mem_cons_self
    by_cases ho : out i = .keep
    · rw [keptOf_cons_keep ho, keptOf_cons_keep (hi ▸ ho)]
      exact .cons (hval i List.mem_cons_self ho) ih
    · rw [keptOf_cons_skip ho, keptOf_cons_skip (hi ▸ ho)]
      exact ih

/-- Steps that keep fewer inputs, with related values, keep a list related to a part. -/
theorem sublistForall₂_keptOf {R : κ → κ → Prop} {out' : ι → Outcome} {val' : ι → κ}
    {is : List ι} (h : ∀ i ∈ is, out i = .keep → out' i = .keep ∧ R (val i) (val' i)) :
    List.SublistForall₂ R (keptOf out val is) (keptOf out' val' is) := by
  induction is with
  | nil => exact .nil
  | cons i is ih =>
    have ih := ih fun j hj => h j (List.mem_cons_of_mem i hj)
    by_cases ho : out i = .keep
    · obtain ⟨ho', hval⟩ := h i List.mem_cons_self ho
      rw [keptOf_cons_keep ho, keptOf_cons_keep ho']
      exact .cons hval ih
    · rw [keptOf_cons_skip ho]
      by_cases ho' : out' i = .keep
      · rw [keptOf_cons_keep ho']
        exact .cons_right ih
      · rw [keptOf_cons_skip ho']
        exact ih

/-! ## 5. The states a run goes through -/

/-- One turn of the loop that does not end it, between the inputs still to come and the slots
before and after it. -/
inductive Turn (full : Nat → Bool) (step : ι → κ → Outcome × κ) :
    List ι × Slots κ → List ι × Slots κ → Prop
  | keep {i : ι} {is : List ι} {s : Slots κ} {c k : κ} (hfull : full s.count = false)
      (cell : s.cells[s.count]? = some c) (out : step i c = (.keep, k)) :
      Turn full step (i :: is, s) (is, (s.put k).bump)
  | skip {i : ι} {is : List ι} {s : Slots κ} {c k : κ} (hfull : full s.count = false)
      (cell : s.cells[s.count]? = some c) (out : step i c = (.skip, k)) :
      Turn full step (i :: is, s) (is, s.put k)

/-- The loop gets from one of these states to the other. -/
abbrev Reaches (full : Nat → Bool) (step : ι → κ → Outcome × κ) :
    List ι × Slots κ → List ι × Slots κ → Prop :=
  Relation.ReflTransGen (Turn full step)

/-- There is a free slot for every input still to come. -/
def Room (a : List ι × Slots κ) : Prop := a.2.count + a.1.length ≤ a.2.cells.length

theorem room_blank {is : List ι} {n : Nat} {b : κ} (h : is.length ≤ n) :
    Room (is, Slots.blank n b) := by
  simpa [Room, Slots.blank] using h

/-- A turn leaves room, and the array as long as it was. -/
theorem Turn.room {a b : List ι × Slots κ} (h : Turn full step a b) (hr : Room a) :
    Room b ∧ b.2.cells.length = a.2.cells.length := by
  cases h with
  | keep | skip =>
    simp only [Room, List.length_cons, Slots.count_bump, Slots.count_put, Slots.cells_bump,
      Slots.length_put, and_true] at hr ⊢
    omega

/-- So there is room at every state that is reached. -/
theorem reaches_room {a b : List ι × Slots κ} (h : Reaches full step a b) (hr : Room a) :
    Room b ∧ b.2.cells.length = a.2.cells.length := by
  induction h with
  | refl => exact ⟨hr, rfl⟩
  | tail _ hturn ih =>
    obtain ⟨hroom, hlen⟩ := ih
    obtain ⟨hroom', hlen'⟩ := hturn.room hroom
    exact ⟨hroom', hlen'.trans hlen⟩

/-- A run ends in a state that it reaches, with or without an abort on the next input, and with
room never past the end of the array. -/
theorem fill_end (full : Nat → Bool) (step : ι → κ → Outcome × κ) (is : List ι) (s : Slots κ)
    (hr : Room (is, s)) :
    ∃ rest s', Reaches full step (is, s) (rest, s') ∧
      (fill full step is s = .done s' ∨ ∃ k, fill full step is s = .aborted (s'.put k)) := by
  induction is generalizing s with
  | nil => exact ⟨[], s, .refl, .inl rfl⟩
  | cons i is ih =>
    by_cases hf : full s.count = true
    · exact ⟨i :: is, s, .refl, .inl (by rw [fill, if_pos hf])⟩
    rw [Bool.not_eq_true] at hf
    have hlt : s.count < s.cells.length := by
      simp only [Room, List.length_cons] at hr
      omega
    have hcell : s.cells[s.count]? = some s.cells[s.count] := List.getElem?_eq_getElem hlt
    cases hst : step i s.cells[s.count] with
    | mk o k =>
      cases o with
      | keep =>
        have hturn : Turn full step (i :: is, s) (is, (s.put k).bump) := .keep hf hcell hst
        obtain ⟨rest, s', hreach, hend⟩ := ih _ (hturn.room hr).1
        refine ⟨rest, s', hreach.head hturn, ?_⟩
        simpa only [fill, hf, Bool.false_eq_true, if_false, hcell, hst] using hend
      | skip =>
        have hturn : Turn full step (i :: is, s) (is, s.put k) := .skip hf hcell hst
        obtain ⟨rest, s', hreach, hend⟩ := ih _ (hturn.room hr).1
        refine ⟨rest, s', hreach.head hturn, ?_⟩
        simpa only [fill, hf, Bool.false_eq_true, if_false, hcell, hst] using hend
      | abort =>
        refine ⟨i :: is, s, .refl, .inr ⟨k, ?_⟩⟩
        simp only [fill, hf, Bool.false_eq_true, if_false, hcell, hst]

end FillSlots

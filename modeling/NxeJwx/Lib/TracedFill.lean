/-
# The loop that fills slots, with its trace

`fillTraced` is the loop `fill` with steps that leave a trace.  Its value is that of `fill` over
what the slots stand for (`val_fillTraced`).  Its events, when those of a step depend on its
input alone (`Tracked`), are the events of the inputs that it looks at, in order: all of them, or
those up to and including the first one that aborts (`fillTraced_visited`).
-/
import NxeJwx.Lib.FillSlots
import NxeJwx.Lib.Trace

universe u

namespace FillSlots

variable {ι κ κ' ε : Type u}

/-! ## 1. The loop -/

/-- The loop, with the events of its steps. -/
def fillTraced (full : Nat → Bool) (step : ι → κ → Traced ε (Outcome × κ)) :
    List ι → Slots κ → Traced ε (Run κ)
  | [], s => return .done s
  | i :: is, s =>
    if full s.count then return .done s
    else
      match s.cells[s.count]? with
      | none => return .overrun
      | some cell => do
        let r ← step i cell
        match r with
        | (.keep, k) => fillTraced full step is (s.put k).bump
        | (.skip, k) => fillTraced full step is (s.put k)
        | (.abort, k) => return .aborted (s.put k)

/-- What the slots stand for. -/
def Slots.map (f : κ → κ') (s : Slots κ) : Slots κ' := ⟨s.cells.map f, s.count⟩

@[simp] theorem Slots.count_map (f : κ → κ') (s : Slots κ) : (s.map f).count = s.count := rfl

@[simp] theorem Slots.map_put (f : κ → κ') (s : Slots κ) (k : κ) :
    (s.put k).map f = (s.map f).put (f k) := by
  simp [Slots.map, Slots.put, List.map_set]

@[simp] theorem Slots.map_bump (f : κ → κ') (s : Slots κ) : s.bump.map f = (s.map f).bump := rfl

@[simp] theorem Slots.map_blank (f : κ → κ') (n : Nat) (b : κ) :
    (Slots.blank n b).map f = Slots.blank n (f b) := by
  simp [Slots.map, Slots.blank]

/-- What a run over such slots stands for. -/
def Run.map (f : κ → κ') : Run κ → Run κ'
  | .done s => .done (s.map f)
  | .aborted s => .aborted (s.map f)
  | .overrun => .overrun

/-- The free slots are clean. -/
def Slots.Free (clean : κ → Prop) (s : Slots κ) : Prop := ∀ c ∈ s.cells.drop s.count, clean c

theorem Slots.Free.keep {clean : κ → Prop} {s : Slots κ} (h : s.Free clean) (k : κ) :
    (s.put k).bump.Free clean := by
  intro c hc
  simp only [Slots.bump, Slots.put] at hc
  rw [List.drop_set_of_lt (Nat.lt_succ_self _)] at hc
  exact h c (List.drop_subset_drop_left _ (Nat.le_succ _) hc)

theorem Slots.Free.skip {clean : κ → Prop} {s : Slots κ} (h : s.Free clean) {k : κ}
    (hk : clean k) : (s.put k).Free clean := by
  intro c hc
  rw [Slots.count_put] at hc
  by_cases hlt : s.count < (s.put k).cells.length
  · rw [List.drop_eq_getElem_cons hlt] at hc
    rcases List.mem_cons.mp hc with rfl | hc
    · simpa [Slots.put] using hk
    · exact h.keep k c hc
  · rw [List.drop_eq_nil_of_le (Nat.le_of_not_lt hlt)] at hc
    exact absurd hc List.not_mem_nil

/-- Without its trace, the loop is the loop over what the slots stand for, provided the step for
each input does there what it stands for, in the slots that the loop comes to. -/
theorem val_fillTraced_free (full : Nat → Bool) {step : ι → κ → Traced ε (Outcome × κ)}
    {step' : ι → κ' → Outcome × κ'} {f : κ → κ'} {clean : κ → Prop} (is : List ι)
    (h : ∀ i ∈ is, ∀ k, clean k → ((step i k).val.1, f (step i k).val.2) = step' i (f k))
    (hskip : ∀ i ∈ is, ∀ k, clean k → (step i k).val.1 = .skip → clean (step i k).val.2)
    (s : Slots κ) (hs : s.Free clean) :
    (fillTraced full step is s).val.map f = fill full step' is (s.map f) := by
  induction is generalizing s with
  | nil => rfl
  | cons i is ih =>
    have hcell : (s.map f).cells[s.count]? = s.cells[s.count]?.map f := List.getElem?_map ..
    unfold fillTraced fill
    rw [Slots.count_map, hcell]
    by_cases hfull : full s.count = true
    · rw [if_pos hfull, if_pos hfull]
      rfl
    rw [if_neg hfull, if_neg hfull]
    cases hat : s.cells[s.count]? with
    | none => rfl
    | some cell =>
      have hclean : clean cell :=
        hs cell (List.mem_of_getElem? (by rw [List.getElem?_drop, Nat.add_zero, hat]))
      have hi := h i List.mem_cons_self cell hclean
      have hki := hskip i List.mem_cons_self cell hclean
      have ih := ih (fun j hj => h j (List.mem_cons_of_mem i hj))
        fun j hj => hskip j (List.mem_cons_of_mem i hj)
      rw [Option.map_some]
      dsimp only
      rw [← hi, Traced.val_bind]
      cases hst : (step i cell).val with
      | mk o k =>
        rw [hst] at hki
        cases o with
        | keep => simpa using ih (s.put k).bump (hs.keep k)
        | skip => simpa using ih (s.put k) (hs.skip (hki rfl))
        | abort => simp [Run.map]

/-- So it is when the steps do what they stand for in every slot. -/
theorem val_fillTraced_of_mem (full : Nat → Bool) {step : ι → κ → Traced ε (Outcome × κ)}
    {step' : ι → κ' → Outcome × κ'} {f : κ → κ'} (is : List ι)
    (h : ∀ i ∈ is, ∀ k, ((step i k).val.1, f (step i k).val.2) = step' i (f k)) (s : Slots κ) :
    (fillTraced full step is s).val.map f = fill full step' is (s.map f) :=
  val_fillTraced_free full is (fun i hi k _ => h i hi k)
    (fun _ _ _ _ _ => trivial) s fun _ _ => trivial

theorem val_fillTraced (full : Nat → Bool) {step : ι → κ → Traced ε (Outcome × κ)}
    {step' : ι → κ' → Outcome × κ'} {f : κ → κ'}
    (h : ∀ i k, ((step i k).val.1, f (step i k).val.2) = step' i (f k)) (is : List ι)
    (s : Slots κ) : (fillTraced full step is s).val.map f = fill full step' is (s.map f) :=
  val_fillTraced_of_mem full is (fun i _ => h i) s

/-! ## 2. The inputs that the loop looks at -/

/-- The inputs up to and including the first one that aborts. -/
def visited (out : ι → Outcome) : List ι → List ι
  | [] => []
  | i :: is => if out i = .abort then [i] else i :: visited out is

theorem visited_cons_abort {out : ι → Outcome} {i : ι} (h : out i = .abort) (is : List ι) :
    visited out (i :: is) = [i] := if_pos h

theorem visited_cons {out : ι → Outcome} {i : ι} (h : out i ≠ .abort) (is : List ι) :
    visited out (i :: is) = i :: visited out is := if_neg h

/-- An input is looked at when none before it aborts. -/
theorem mem_visited_iff {out : ι → Outcome} {is : List ι} {i : ι} :
    i ∈ visited out is ↔
      ∃ before after, is = before ++ i :: after ∧ ∀ j ∈ before, out j ≠ .abort := by
  induction is with
  | nil => simp [visited]
  | cons j is ih =>
    constructor
    · intro h
      by_cases hj : out j = .abort
      · rw [visited_cons_abort hj, List.mem_singleton] at h
        exact ⟨[], is, by rw [h]; rfl, by simp⟩
      rw [visited_cons hj, List.mem_cons] at h
      rcases h with rfl | h
      · exact ⟨[], is, rfl, by simp⟩
      obtain ⟨before, after, rfl, hb⟩ := ih.mp h
      refine ⟨j :: before, after, rfl, ?_⟩
      intro j' hj'
      rcases List.mem_cons.mp hj' with rfl | hj'
      · exact hj
      · exact hb j' hj'
    · rintro ⟨before, after, heq, hb⟩
      cases before with
      | nil =>
        obtain ⟨rfl, rfl⟩ := List.cons.inj heq
        unfold visited
        split <;> simp
      | cons j' before =>
        obtain ⟨rfl, hrest⟩ := List.cons.inj heq
        rw [visited_cons (hb j List.mem_cons_self)]
        exact List.mem_cons_of_mem _
          (ih.mpr ⟨before, after, hrest, fun x hx => hb x (List.mem_cons_of_mem _ hx)⟩)

theorem visited_sublist (out : ι → Outcome) (is : List ι) : (visited out is).Sublist is := by
  induction is with
  | nil => exact .slnil
  | cons i is ih =>
    by_cases hi : out i = .abort
    · rw [visited_cons_abort hi]
      exact (List.nil_sublist is).cons_cons i
    · rw [visited_cons hi]
      exact ih.cons_cons i

/-- What is done to the kept values, input by input. -/
theorem flatMap_keptOf {β : Type*} (out : ι → Outcome) (val : ι → κ) (g : κ → List β)
    (is : List ι) :
    (keptOf out val is).flatMap g =
      is.flatMap fun i => if out i = .keep then g (val i) else [] := by
  induction is with
  | nil => rfl
  | cons i is ih =>
    by_cases hi : out i = .keep
    · rw [keptOf_cons_keep hi, List.flatMap_cons, List.flatMap_cons, ih, if_pos hi]
    · rw [keptOf_cons_skip hi, List.flatMap_cons, ih, if_neg hi]
      rfl

/-- A step that is regular, and whose events depend on its input alone. -/
structure Tracked (clean : κ → Prop) (step : ι → κ → Traced ε (Outcome × κ)) (out : ι → Outcome)
    (val : ι → κ) (evs : ι → List ε) : Prop
    extends Regular clean (fun i k => (step i k).val) out val where
  events : ∀ i k, clean k → (step i k).events = evs i

/-- A run of the loop uses the slots up by the values kept among the inputs that it looks at, and
its events are those of these inputs. -/
theorem fillTraced_visited {clean : κ → Prop} {full : Nat → Bool}
    {step : ι → κ → Traced ε (Outcome × κ)} {out : ι → Outcome} {val : ι → κ}
    {evs : ι → List ε} (hr : Tracked clean step out val evs) (is : List ι) (s : Slots κ)
    (hs : Ready clean s is.length) (hf : ∀ n < s.cells.length, full n = false) :
    ∃ s', ((fillTraced full step is s).val = .done s' ∨
        (fillTraced full step is s).val = .aborted s') ∧
      s'.filled = s.filled ++ keptOf out val (visited out is) ∧
      (fillTraced full step is s).events = (visited out is).flatMap evs := by
  induction is generalizing s with
  | nil => exact ⟨s, .inl rfl, by simp [visited, keptOf], rfl⟩
  | cons i is ih =>
    obtain ⟨cell, hcell, hclean⟩ := hs.cell
    have hout := hr.outcome i cell hclean
    have hevents := hr.events i cell hclean
    have hkept := hr.kept i cell hclean
    have hskipped := hr.skipped i cell hclean
    unfold fillTraced
    rw [hf _ hs.lt, hcell, if_neg (by decide)]
    dsimp only
    rw [Traced.val_bind, Traced.events_bind, hevents]
    cases hst : (step i cell).val with
    | mk o k =>
      rw [hst] at hout hkept hskipped
      dsimp only at hout hkept hskipped ⊢
      cases o with
      | keep =>
        have hne : out i ≠ .abort := by rw [← hout]; decide
        obtain ⟨s', hend, hfilled, htrace⟩ := ih (s.put k).bump (hs.keep _) (by simpa using hf)
        refine ⟨s', hend, ?_, ?_⟩
        · rw [hfilled, Slots.filled_put_bump hs.lt, visited_cons hne, keptOf_cons_keep hout.symm,
            hkept hout.symm, List.append_assoc, List.singleton_append]
        · rw [htrace, visited_cons hne, List.flatMap_cons]
      | skip =>
        have hne : out i ≠ .abort := by rw [← hout]; decide
        have hnk : out i ≠ .keep := by rw [← hout]; decide
        obtain ⟨s', hend, hfilled, htrace⟩ := ih (s.put k) (hs.skip (hskipped hout.symm))
          (by simpa using hf)
        refine ⟨s', hend, ?_, ?_⟩
        · rw [hfilled, Slots.filled_put, visited_cons hne, keptOf_cons_skip hnk]
        · rw [htrace, visited_cons hne, List.flatMap_cons]
      | abort =>
        have hnk : out i ≠ .keep := by rw [← hout]; decide
        refine ⟨s.put k, .inr rfl, ?_, ?_⟩
        · rw [visited_cons_abort hout.symm, keptOf_cons_skip hnk, Slots.filled_put]
          simp [keptOf]
        · rw [visited_cons_abort hout.symm, Traced.events_pure, List.flatMap_singleton]
          exact List.append_nil _

end FillSlots

/-
# The search loop, with its trace

`tryEachTraced` is the loop `tryEach` with trials that leave a trace.  Its report is that of
`tryEach` (`val_tryEachTraced`), and its events are those of the candidates that it tries, in
order: the eligible ones, up to and including the first that is accepted (`tried`,
`events_tryEachTraced`).  So no candidate is tried twice, and none after a hit.
-/
import NxeJwx.Lib.Trace
import NxeJwx.Lib.TryEach

namespace TryEach

open Traced

variable {α : Type*} {ε : Type}

/-- The candidates that the loop tries. -/
def tried (eligible : α → Bool) (attempt : α → Trial) : List α → List α
  | [] => []
  | a :: as =>
    if eligible a then
      if attempt a = .accepted then [a] else a :: tried eligible attempt as
    else tried eligible attempt as

/-- The loop, with the events of its trials. -/
def tryEachTraced (eligible : α → Bool) (attempt : α → Traced ε Trial) :
    List α → Report → Traced ε Report
  | [], r => return r
  | a :: as, r =>
    if eligible a then do
      match ← attempt a with
      | .accepted => return { r with hit := true, matched := true }
      | .rejected => tryEachTraced eligible attempt as { r with matched := true }
      | .failed => tryEachTraced eligible attempt as { r with matched := true, failed := true }
    else tryEachTraced eligible attempt as r

section Tried

variable {eligible : α → Bool} {attempt : α → Trial}

theorem tried_cons_ineligible {a : α} (h : eligible a = false) (as : List α) :
    tried eligible attempt (a :: as) = tried eligible attempt as := by
  rw [tried, if_neg (by rw [h]; decide)]

theorem tried_cons_accepted {a : α} (h : eligible a = true) (ha : attempt a = .accepted)
    (as : List α) : tried eligible attempt (a :: as) = [a] := by
  rw [tried, if_pos h, if_pos ha]

theorem tried_cons {a : α} (h : eligible a = true) (ha : attempt a ≠ .accepted) (as : List α) :
    tried eligible attempt (a :: as) = a :: tried eligible attempt as := by
  rw [tried, if_pos h, if_neg ha]

/-- The candidates that are tried are eligible ones, in order, none of them twice. -/
theorem tried_sublist (as : List α) :
    (tried eligible attempt as).Sublist (as.filter eligible) := by
  induction as with
  | nil => exact .slnil
  | cons a as ih =>
    by_cases h : eligible a = true
    · rw [List.filter_cons_of_pos h]
      by_cases ha : attempt a = .accepted
      · rw [tried_cons_accepted h ha]
        exact (List.nil_sublist _).cons_cons a
      · rw [tried_cons h ha]
        exact ih.cons_cons a
    · rw [List.filter_cons_of_neg h, tried_cons_ineligible (by simpa using h)]
      exact ih

/-- If none is accepted, all eligible ones are tried. -/
theorem tried_eq_filter {as : List α}
    (h : ∀ a ∈ as, eligible a = true → attempt a ≠ .accepted) :
    tried eligible attempt as = as.filter eligible := by
  induction as with
  | nil => rfl
  | cons a as ih =>
    have hrest := ih fun b hb => h b (List.mem_cons_of_mem _ hb)
    by_cases ha : eligible a = true
    · rw [tried_cons ha (h a List.mem_cons_self ha), List.filter_cons_of_pos ha, hrest]
    · rw [tried_cons_ineligible (by simpa using ha), List.filter_cons_of_neg ha, hrest]

/-- If one is accepted, the loop tries the eligible ones before the first that is, none of which
is accepted, then this one, and no more. -/
theorem tried_of_hit {as : List α} (h : ∃ a ∈ as, eligible a = true ∧ attempt a = .accepted) :
    ∃ before a after, as = before ++ a :: after ∧ eligible a = true ∧ attempt a = .accepted ∧
      (∀ b ∈ before, eligible b = true → attempt b ≠ .accepted) ∧
      tried eligible attempt as = before.filter eligible ++ [a] := by
  induction as with
  | nil =>
    obtain ⟨a, ha, -⟩ := h
    exact absurd ha List.not_mem_nil
  | cons a as ih =>
    by_cases hhit : eligible a = true ∧ attempt a = .accepted
    · exact ⟨[], a, as, rfl, hhit.1, hhit.2, by simp, tried_cons_accepted hhit.1 hhit.2 as⟩
    · have hlater : ∃ b ∈ as, eligible b = true ∧ attempt b = .accepted := by
        obtain ⟨b, hb, he⟩ := h
        rcases List.mem_cons.mp hb with rfl | hb
        · exact absurd he hhit
        · exact ⟨b, hb, he⟩
      obtain ⟨before, b, after, rfl, he, hacc, hbefore, htried⟩ := ih hlater
      refine ⟨a :: before, b, after, rfl, he, hacc, ?_, ?_⟩
      · intro c hc hce hca
        rcases List.mem_cons.mp hc with rfl | hc
        · exact hhit ⟨hce, hca⟩
        · exact hbefore c hc hce hca
      · by_cases ha : eligible a = true
        · rw [tried_cons ha fun hacc' => hhit ⟨ha, hacc'⟩, htried, List.filter_cons_of_pos ha,
            List.cons_append]
        · rw [tried_cons_ineligible (by simpa using ha), htried, List.filter_cons_of_neg ha]

/-- The loop goes by the value of its test. -/
theorem tried_congr {eligible' : α → Bool} {as : List α}
    (h : ∀ a ∈ as, eligible a = eligible' a) :
    tried eligible attempt as = tried eligible' attempt as := by
  induction as with
  | nil => rfl
  | cons a as ih =>
    rw [tried, tried, h a List.mem_cons_self, ih fun b hb => h b (List.mem_cons_of_mem _ hb)]

/-- A loop without eligible candidates does nothing. -/
theorem tryEach_of_ineligible {as : List α} (h : ∀ a ∈ as, eligible a = false) (r : Report) :
    tryEach eligible attempt as r = r ∧ tried eligible attempt as = [] := by
  induction as with
  | nil => exact ⟨rfl, rfl⟩
  | cons a as ih =>
    have ha := h a List.mem_cons_self
    obtain ⟨hrun, htried⟩ := ih fun b hb => h b (List.mem_cons_of_mem _ hb)
    refine ⟨?_, (tried_cons_ineligible ha as).trans htried⟩
    rw [tryEach, if_neg (by rw [ha]; decide), hrun]

/-- The last flag goes up at each trial that fails. -/
theorem tryEach_failed (as : List α) (r : Report) :
    (tryEach eligible attempt as r).failed =
      (r.failed || (tried eligible attempt as).any fun a => attempt a == .failed) := by
  induction as generalizing r with
  | nil => simp [tryEach, tried]
  | cons a as ih =>
    unfold tryEach
    cases h : eligible a with
    | false => rw [if_neg (by decide), ih r, tried_cons_ineligible h]
    | true =>
      rw [if_pos rfl]
      cases ha : attempt a with
      | accepted => simp [tried_cons_accepted h ha, ha]
      | rejected =>
        rw [tried_cons h (by rw [ha]; decide), ih, List.any_cons, ha]
        rfl
      | failed =>
        rw [tried_cons h (by rw [ha]; decide), ih, List.any_cons, ha]
        simp

end Tried

variable {eligible : α → Bool} {attempt : α → Traced ε Trial}

/-- Without its trace, the loop is the loop. -/
theorem val_tryEachTraced (as : List α) (r : Report) :
    (tryEachTraced eligible attempt as r).val =
      tryEach eligible (fun a => (attempt a).val) as r := by
  induction as generalizing r with
  | nil => rfl
  | cons a as ih =>
    unfold tryEachTraced tryEach
    split
    · rw [val_bind]
      cases (attempt a).val with
      | accepted => rfl
      | rejected | failed => exact ih _
    · exact ih r

/-- The events of the loop are those of the candidates that it tries. -/
theorem events_tryEachTraced (as : List α) (r : Report) :
    (tryEachTraced eligible attempt as r).events =
      (tried eligible (fun a => (attempt a).val) as).flatMap fun a => (attempt a).events := by
  induction as generalizing r with
  | nil => rfl
  | cons a as ih =>
    unfold tryEachTraced
    by_cases h : eligible a = true
    · rw [if_pos h, events_bind]
      cases ha : (attempt a).val with
      | accepted =>
        rw [tried_cons_accepted h ha, List.flatMap_singleton]
        exact List.append_nil _
      | rejected | failed =>
        rw [tried_cons h (by rw [ha]; decide), List.flatMap_cons]
        exact congrArg _ (ih _)
    · rw [if_neg h, tried_cons_ineligible (by simpa using h)]
      exact ih r

/-- What every event of a trial of a candidate satisfies, every event of the loop satisfies. -/
theorem only_tryEachTraced {P : ε → Prop} {as : List α} (h : ∀ a ∈ as, Only P (attempt a))
    (r : Report) : Only P (tryEachTraced eligible attempt as r) := by
  intro e he
  rw [events_tryEachTraced] at he
  obtain ⟨a, ha, hea⟩ := List.mem_flatMap.mp he
  exact h a (List.mem_of_mem_filter ((tried_sublist as).subset ha)) e hea

end TryEach

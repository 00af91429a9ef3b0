/-
# Reading a list up to a separator

Two ways of cutting a list at the FIRST occurrence of a separator agree (`cut_inj`), and a
list with exactly two separators has exactly one reading as three separator-free pieces
(`three_inj`).
-/
import Mathlib.Data.List.Basic
import Mathlib.Tactic.Common

namespace Separator

variable {α : Type*} {sep : α}

/-- Cutting at the first separator is unambiguous. -/
theorem cut_inj {x y u v : List α} (hx : sep ∉ x) (hy : sep ∉ y)
    (h : x ++ sep :: u = y ++ sep :: v) : x = y ∧ u = v := by
  induction x generalizing y with
  | nil =>
    cases y with
    | nil => exact ⟨rfl, (List.cons.inj h).2⟩
    | cons b y =>
      have hb : sep = b := (List.cons.inj h).1
      exact absurd (hb ▸ List.mem_cons_self) hy
  | cons a x ih =>
    cases y with
    | nil =>
      have ha : a = sep := (List.cons.inj h).1
      exact absurd (ha ▸ List.mem_cons_self) hx
    | cons b y =>
      obtain ⟨hab, h⟩ := List.cons.inj h
      obtain ⟨hxy, huv⟩ := ih (List.not_mem_of_not_mem_cons hx)
        (List.not_mem_of_not_mem_cons hy) h
      exact ⟨by rw [hab, hxy], huv⟩

/-- Three separator-free pieces joined by two separators. -/
def three (sep : α) (x y z : List α) : List α := x ++ sep :: (y ++ sep :: z)

/-- The three pieces can be read back. -/
theorem three_inj {x y z x' y' z' : List α} (hx : sep ∉ x) (hx' : sep ∉ x') (hy : sep ∉ y)
    (hy' : sep ∉ y') (h : three sep x y z = three sep x' y' z') : x = x' ∧ y = y' ∧ z = z' := by
  obtain ⟨h1, h⟩ := cut_inj hx hx' h
  obtain ⟨h2, h3⟩ := cut_inj hy hy' h
  exact ⟨h1, h2, h3⟩

theorem length_three (x y z : List α) :
    (three sep x y z).length = x.length + y.length + z.length + 2 := by
  simp only [three, List.length_append, List.length_cons]
  omega

/-- What stands before the second separator. -/
theorem take_three (x y z : List α) :
    (three sep x y z).take (x.length + 1 + y.length) = x ++ sep :: y := by
  have h : three sep x y z = (x ++ sep :: y) ++ sep :: z := by simp [three]
  rw [h, List.take_left' (by simp; omega)]

/-- What stands before the first separator. -/
theorem take_first (x y z : List α) : (three sep x y z).take x.length = x :=
  List.take_left' rfl

/-- What stands between the two separators. -/
theorem take_second (x y z : List α) :
    ((three sep x y z).drop (x.length + 1)).take (x.length + 1 + y.length - x.length - 1) = y := by
  have h : three sep x y z = (x ++ [sep]) ++ (y ++ sep :: z) := by simp [three]
  have hlen : x.length + 1 + y.length - x.length - 1 = y.length := by omega
  rw [h, List.drop_left' (by simp), hlen, List.take_left' rfl]

/-- What stands after the second separator. -/
theorem drop_third (x y z : List α) :
    (three sep x y z).drop (x.length + 1 + y.length + 1) = z := by
  have h : three sep x y z = (x ++ sep :: y ++ [sep]) ++ z := by simp [three]
  rw [h, List.drop_left' (by simp; omega)]

end Separator

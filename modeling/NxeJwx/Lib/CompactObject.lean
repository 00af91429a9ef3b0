/-
# The compact text of a JSON object

An object without white space is `{"k":v,"k":v}`, the values already serialised.  For
members whose names and string values carry no quotation mark and no reverse solidus, a
quoted string is the bytes between two quotation marks, so the text of an object with such
string values determines the list of its members, order included
(`stringObject_injective`).
-/
import Mathlib.Data.List.Basic
import NxeJwx.Lib.Separator

namespace CompactObject

/-- A quoted string, for contents that need no escape. -/
def quote (s : List UInt8) : List UInt8 := 34 :: s ++ [34]

/-- Contents that need no escape: printable ASCII other than `"` and `\`. -/
def Plain (s : List UInt8) : Prop := ∀ c ∈ s, 32 ≤ c ∧ c < 127 ∧ c ≠ 34 ∧ c ≠ 92

instance (s : List UInt8) : Decidable (Plain s) :=
  inferInstanceAs (Decidable (∀ c ∈ s, 32 ≤ c ∧ c < 127 ∧ c ≠ 34 ∧ c ≠ 92))

/-- One member: the quoted name, a colon, the text of the value. -/
def member (m : List UInt8 × List UInt8) : List UInt8 := quote m.1 ++ 58 :: m.2

/-- What follows the first member, closing brace included. -/
def rest : List (List UInt8 × List UInt8) → List UInt8
  | [] => [125]
  | m :: ms => 44 :: member m ++ rest ms

/-- The text of an object, from names and texts of values. -/
def object : List (List UInt8 × List UInt8) → List UInt8
  | [] => [123, 125]
  | m :: ms => 123 :: member m ++ rest ms

/-- The text of an object with string values that need no escape. -/
def stringObject (ms : List (List UInt8 × List UInt8)) : List UInt8 :=
  object (ms.map fun m => (m.1, quote m.2))

theorem Plain.not_mem_quote {s : List UInt8} (h : Plain s) : (34 : UInt8) ∉ s :=
  fun hc => (h 34 hc).2.2.1 rfl

/-- A quoted string can be read off the front of a text. -/
theorem quote_append_inj {s t u v : List UInt8} (hs : Plain s) (ht : Plain t)
    (h : quote s ++ u = quote t ++ v) : s = t ∧ u = v := by
  simp only [quote, List.cons_append, List.append_assoc, List.cons.injEq, true_and,
    List.nil_append] at h
  exact Separator.cut_inj hs.not_mem_quote ht.not_mem_quote h

/-- The members all of whose strings need no escape. -/
def PlainMembers (ms : List (List UInt8 × List UInt8)) : Prop :=
  ∀ m ∈ ms, Plain m.1 ∧ Plain m.2

/-- A member with a string value can be read off the front of a text. -/
theorem member_append_inj {m m' : List UInt8 × List UInt8} {u v : List UInt8}
    (h1 : Plain m.1 ∧ Plain m.2) (h2 : Plain m'.1 ∧ Plain m'.2)
    (h : member (m.1, quote m.2) ++ u = member (m'.1, quote m'.2) ++ v) : m = m' ∧ u = v := by
  simp only [member, List.append_assoc, List.cons_append] at h
  obtain ⟨hk, h⟩ := quote_append_inj h1.1 h2.1 h
  obtain ⟨hv, h⟩ := quote_append_inj h1.2 h2.2 (List.cons.inj h).2
  exact ⟨Prod.ext hk hv, h⟩

theorem rest_injective {ms ms' : List (List UInt8 × List UInt8)} (h1 : PlainMembers ms)
    (h2 : PlainMembers ms')
    (h : rest (ms.map fun m => (m.1, quote m.2)) = rest (ms'.map fun m => (m.1, quote m.2))) :
    ms = ms' := by
  induction ms generalizing ms' with
  | nil =>
    cases ms' with
    | nil => rfl
    | cons m' ms' => exact absurd h (by simp [rest])
  | cons m ms ih =>
    cases ms' with
    | nil => exact absurd h (by simp [rest])
    | cons m' ms' =>
      simp only [List.map_cons, rest, List.cons_append, List.cons.injEq, true_and] at h
      obtain ⟨hm, h⟩ := member_append_inj (h1 m List.mem_cons_self) (h2 m' List.mem_cons_self) h
      have hms := ih (fun x hx => h1 x (List.mem_cons_of_mem _ hx))
        (fun x hx => h2 x (List.mem_cons_of_mem _ hx)) h
      rw [hm, hms]

/-- The text of an object with plain string values determines its members and their
order. -/
theorem stringObject_injective {ms ms' : List (List UInt8 × List UInt8)}
    (h1 : PlainMembers ms) (h2 : PlainMembers ms')
    (h : stringObject ms = stringObject ms') : ms = ms' := by
  match ms, ms' with
  | [], [] => rfl
  | [], m' :: ms' => simp [stringObject, object, member, quote] at h
  | m :: ms, [] => simp [stringObject, object, member, quote] at h
  | m :: ms, m' :: ms' =>
    simp only [stringObject, List.map_cons, object, List.cons_append, List.cons.injEq,
      true_and] at h
    obtain ⟨hm, h⟩ := member_append_inj (h1 m List.mem_cons_self) (h2 m' List.mem_cons_self) h
    have hms := rest_injective (fun x hx => h1 x (List.mem_cons_of_mem _ hx))
      (fun x hx => h2 x (List.mem_cons_of_mem _ hx)) h
    rw [hm, hms]

/-! ## What the text is made of -/

section Forall

variable {P : UInt8 → Prop}

theorem forall_mem_quote (h34 : P 34) {s : List UInt8} (hs : ∀ c ∈ s, P c) :
    ∀ c ∈ quote s, P c := by
  intro c hc
  simp only [quote, List.cons_append, List.mem_cons, List.mem_append, List.not_mem_nil,
    or_false] at hc
  rcases hc with rfl | hc | rfl
  · exact h34
  · exact hs c hc
  · exact h34

/-- What holds of the punctuation and of the characters of all strings holds of the text. -/
theorem forall_mem_stringObject (hpunct : ∀ c ∈ [34, 44, 58, 123, 125], P c)
    {ms : List (List UInt8 × List UInt8)}
    (h : ∀ m ∈ ms, (∀ c ∈ m.1, P c) ∧ ∀ c ∈ m.2, P c) : ∀ c ∈ stringObject ms, P c := by
  have hmember : ∀ m ∈ ms, ∀ c ∈ member (m.1, quote m.2), P c := by
    intro m hm c hc
    simp only [member, List.mem_append, List.mem_cons] at hc
    rcases hc with hc | rfl | hc
    · exact forall_mem_quote (hpunct _ (by simp)) (h m hm).1 c hc
    · exact hpunct _ (by simp)
    · exact forall_mem_quote (hpunct _ (by simp)) (h m hm).2 c hc
  have hrest : ∀ ms' : List (List UInt8 × List UInt8), (∀ m ∈ ms', m ∈ ms) →
      ∀ c ∈ rest (ms'.map fun m => (m.1, quote m.2)), P c := by
    intro ms'
    induction ms' with
    | nil =>
      intro _ c hc
      obtain rfl : c = 125 := by simpa [rest] using hc
      exact hpunct _ (by simp)
    | cons m ms' ih =>
      intro hsub c hc
      simp only [List.map_cons, rest, List.cons_append, List.mem_cons, List.mem_append] at hc
      rcases hc with rfl | hc | hc
      · exact hpunct _ (by simp)
      · exact hmember m (hsub m List.mem_cons_self) c hc
      · exact ih (fun w hw => hsub w (List.mem_cons_of_mem _ hw)) c hc
  cases ms with
  | nil =>
    intro c hc
    simp only [stringObject, List.map_nil, object, List.mem_cons, List.not_mem_nil, or_false] at hc
    rcases hc with rfl | rfl <;> exact hpunct _ (by simp)
  | cons m ms =>
    intro c hc
    simp only [stringObject, List.map_cons, object, List.cons_append, List.mem_cons,
      List.mem_append] at hc
    rcases hc with rfl | hc | hc
    · exact hpunct _ (by simp)
    · exact hmember m List.mem_cons_self c hc
    · exact hrest ms (fun w hw => List.mem_cons_of_mem _ hw) c hc

end Forall

end CompactObject

/-
# Reading a compact object of strings

A reader for the objects of `CompactObject` whose values are strings, escapes included, and the
round trip with the writer: whatever bytes the values hold, an object that is written can be
read (`readObject_writeObject`).

The writer escapes the quotation mark, the reverse solidus and the control characters, so for a
string that needs no escape it is `CompactObject.quote` (`writeString_of_plain`).  The reader
knows these escapes and no others.
-/
import NxeJwx.Lib.CompactObject

namespace StringObject

open CompactObject

/-! ## 1. Strings -/

/-- A hexadecimal digit, in lower case. -/
def hexDigit (n : Nat) : UInt8 := if n < 10 then .ofNat (48 + n) else .ofNat (87 + n)

/-- The value of a hexadecimal digit in lower case. -/
def hexValue (c : UInt8) : Nat := if c < 58 then c.toNat - 48 else c.toNat - 87

/-- One character of a string, escaped where it must be. -/
def escape (c : UInt8) : List UInt8 :=
  if c = 34 then [92, 34]
  else if c = 92 then [92, 92]
  else if c < 32 then [92, 117, 48, 48, hexDigit (c.toNat / 16), hexDigit (c.toNat % 16)]
  else [c]

/-- A string in quotation marks. -/
def writeString (s : List UInt8) : List UInt8 := 34 :: s.flatMap escape ++ [34]

/-- What stands before the closing quotation mark, and what follows it. -/
def readString : List UInt8 → Option (List UInt8 × List UInt8)
  | [] => none
  | c :: cs =>
    if c = 34 then some ([], cs)
    else if c = 92 then
      match cs with
      | [] => none
      | d :: ds =>
        if d = 34 ∨ d = 92 then (readString ds).map fun r => (d :: r.1, r.2)
        else if d = 117 then
          match ds with
          | 48 :: 48 :: h :: l :: es =>
            (readString es).map fun r => (.ofNat (hexValue h * 16 + hexValue l) :: r.1, r.2)
          | _ => none
        else none
    else (readString cs).map fun r => (c :: r.1, r.2)

theorem hexValue_hexDigit : ∀ n < 32,
    hexValue (hexDigit (n / 16)) * 16 + hexValue (hexDigit (n % 16)) = n := by
  decide

theorem readString_quote (cs : List UInt8) : readString (34 :: cs) = some ([], cs) := by
  rw [readString.eq_def]
  rfl

/-- One character is read back. -/
theorem readString_escape (c : UInt8) (cs : List UInt8) :
    readString (escape c ++ cs) = (readString cs).map fun r => (c :: r.1, r.2) := by
  unfold escape
  split
  next h =>
    subst h
    rw [List.cons_append, List.cons_append, List.nil_append, readString.eq_def]
    simp
  split
  next h =>
    subst h
    rw [List.cons_append, List.cons_append, List.nil_append, readString.eq_def]
    simp
  split
  next hctl =>
    have hval := hexValue_hexDigit c.toNat (UInt8.lt_iff_toNat_lt.mp hctl)
    simp [readString, hval]
  next h34 h92 _ =>
    rw [List.cons_append, List.nil_append, readString.eq_def]
    simp [h34, h92]

/-- A string is read back, up to its closing quotation mark. -/
theorem readString_flatMap (s rest : List UInt8) :
    readString (s.flatMap escape ++ 34 :: rest) = some (s, rest) := by
  induction s with
  | nil => exact readString_quote rest
  | cons c s ih => rw [List.flatMap_cons, List.append_assoc, readString_escape, ih]; rfl

/-- A string that needs no escape is written as it is. -/
theorem writeString_of_plain {s : List UInt8} (h : Plain s) : writeString s = quote s := by
  have hs : s.flatMap escape = s := by
    induction s with
    | nil => rfl
    | cons c s ih =>
      obtain ⟨h32, -, h34, h92⟩ := h c List.mem_cons_self
      have hc : escape c = [c] := by
        rw [escape, if_neg h34, if_neg h92, if_neg (UInt8.not_lt.mpr h32)]
      rw [List.flatMap_cons, hc, ih fun d hd => h d (List.mem_cons_of_mem _ hd)]
      rfl
  rw [writeString, hs, quote]

/-! ## 2. Objects -/

/-- One member: a name, a colon, a string. -/
def readMember : List UInt8 → Option ((List UInt8 × List UInt8) × List UInt8)
  | 34 :: cs => do
    let (name, cs) ← readString cs
    match cs with
    | 58 :: 34 :: cs =>
      let (value, cs) ← readString cs
      return ((name, value), cs)
    | _ => none
  | _ => none

/-- The members after the first one and the closing brace, at most `n` of them. -/
def readRest : Nat → List UInt8 → Option (List (List UInt8 × List UInt8))
  | _, [125] => some []
  | n + 1, 44 :: cs => do
    let (m, cs) ← readMember cs
    let ms ← readRest n cs
    return m :: ms
  | _, _ => none

/-- A compact object of strings. -/
def readObject (text : List UInt8) : Option (List (List UInt8 × List UInt8)) :=
  match text with
  | [123, 125] => some []
  | 123 :: cs => do
    let (m, cs) ← readMember cs
    let ms ← readRest text.length cs
    return m :: ms
  | _ => none

/-- The text of an object with string values. -/
def writeObject (ms : List (List UInt8 × List UInt8)) : List UInt8 :=
  object (ms.map fun m => (m.1, writeString m.2))

theorem readMember_member {m : List UInt8 × List UInt8} (hm : Plain m.1) (cs : List UInt8) :
    readMember (member (m.1, writeString m.2) ++ cs) = some (m, cs) := by
  have hname : member (m.1, writeString m.2) ++ cs =
      34 :: (m.1.flatMap escape ++ 34 :: 58 :: 34 :: (m.2.flatMap escape ++ 34 :: cs)) := by
    rw [member, ← writeString_of_plain hm]
    simp [writeString, List.append_assoc]
  rw [hname]
  simp [readMember, readString_flatMap]

theorem readRest_rest {ms : List (List UInt8 × List UInt8)} {n : Nat}
    (hms : ∀ m ∈ ms, Plain m.1) (hn : ms.length ≤ n) :
    readRest n (rest (ms.map fun m => (m.1, writeString m.2))) = some ms := by
  induction ms generalizing n with
  | nil => simp [rest, readRest]
  | cons m ms ih =>
    obtain ⟨n, rfl⟩ : ∃ n', n = n' + 1 := ⟨n - 1, by simp only [List.length_cons] at hn; omega⟩
    have htail := ih (n := n) (fun x hx => hms x (List.mem_cons_of_mem _ hx)) (by simpa using hn)
    simp only [List.map_cons, rest, List.cons_append]
    rw [readRest, readMember_member (hms m List.mem_cons_self)]
    simp [htail]

theorem length_rest (ms : List (List UInt8 × List UInt8)) : ms.length ≤ (rest ms).length := by
  induction ms with
  | nil => simp
  | cons m ms ih =>
    simp only [rest, List.cons_append, List.length_cons, List.length_append]
    omega

/-- An object that is written can be read. -/
theorem readObject_writeObject {ms : List (List UInt8 × List UInt8)}
    (h : ∀ m ∈ ms, Plain m.1) : readObject (writeObject ms) = some ms := by
  cases ms with
  | nil => simp [writeObject, object, readObject]
  | cons m ms =>
    have hrest := length_rest (ms.map fun m => (m.1, writeString m.2))
    rw [List.length_map] at hrest
    have htail := readRest_rest (n := (writeObject (m :: ms)).length)
      (fun x hx => h x (List.mem_cons_of_mem _ hx)) (by
        simp only [writeObject, List.map_cons, object, List.cons_append, List.length_cons,
          List.length_append]
        omega)
    have hmember := readMember_member (h m List.mem_cons_self)
      (rest (ms.map fun m => (m.1, writeString m.2)))
    rw [writeObject, List.map_cons, object, List.cons_append, readObject]
    · rw [hmember]
      simp only [Option.bind_eq_bind, Option.bind_some]
      rw [show (123 :: (member (m.1, writeString m.2) ++
        rest (ms.map fun m => (m.1, writeString m.2)))) = writeObject (m :: ms) from rfl, htail]
      rfl
    · simp [member, quote]

end StringObject

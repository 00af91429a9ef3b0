/-
# DER: a sequence of two non-negative integers

The distinguished encoding of definite lengths, of fields made of a tag, a length and content, of
non-negative integers (shortest two's complement, so that a first octet with its top bit set is
preceded by a zero), and of a SEQUENCE of two of them.

Reading is the inverse of writing, whatever follows (`readLength_lengthOctets`,
`readField_field`, `readInteger_integerOctets`, `readPair_pair`), as long as the content can be
given a length, which takes at most 126 octets.
-/
import NxeJwx.Lib.BigEndian

namespace Der

open BigEndian

/-! ## 1. Lengths -/

/-- The length octets: the number itself below 128, else how many octets it takes and these. -/
def lengthOctets (n : Nat) : List UInt8 :=
  if n < 128 then [UInt8.ofNat n] else UInt8.ofNat (128 + byteLength n) :: minimal n

/-- A length and what follows it.  128 alone is the indefinite form, which DER does not have. -/
def readLength : List UInt8 → Option (Nat × List UInt8)
  | [] => none
  | b :: rest =>
    if b.toNat < 128 then some (b.toNat, rest)
    else if b.toNat = 128 ∨ rest.length < b.toNat - 128 then none
    else some (ofBytes (rest.take (b.toNat - 128)), rest.drop (b.toNat - 128))

theorem readLength_lengthOctets {n : Nat} (h : byteLength n ≤ 126) (rest : List UInt8) :
    readLength (lengthOctets n ++ rest) = some (n, rest) := by
  by_cases hshort : n < 128
  · have hn : (UInt8.ofNat n).toNat = n := by
      rw [UInt8.toNat_ofNat']
      omega
    simp only [lengthOctets, if_pos hshort, List.singleton_append, readLength, hn]
  · have hpos : 0 < byteLength n := byteLength_pos (by omega)
    have hk : (UInt8.ofNat (128 + byteLength n)).toNat = 128 + byteLength n := by
      rw [UInt8.toNat_ofNat']
      omega
    have hlong : ¬ (128 + byteLength n = 128 ∨ (minimal n ++ rest).length < byteLength n) := by
      rw [List.length_append, length_minimal]
      omega
    simp only [lengthOctets, if_neg hshort, List.cons_append, readLength, hk,
      if_neg (show ¬ 128 + byteLength n < 128 by omega), Nat.add_sub_cancel_left]
    rw [if_neg hlong, List.take_left' (length_minimal n), List.drop_left' (length_minimal n),
      ofBytes_minimal]

/-- Below 128 a length is one octet. -/
theorem length_lengthOctets {n : Nat} (h : n < 128) : (lengthOctets n).length = 1 := by
  rw [lengthOctets, if_pos h, List.length_singleton]

/-! ## 2. Fields -/

/-- A tag, the length of the content, and the content. -/
def field (tag : UInt8) (content : List UInt8) : List UInt8 :=
  tag :: (lengthOctets content.length ++ content)

/-- The content of a field with the tag, and what follows the field. -/
def readField (tag : UInt8) : List UInt8 → Option (List UInt8 × List UInt8)
  | [] => none
  | t :: rest =>
    if t ≠ tag then none
    else
      match readLength rest with
      | none => none
      | some (n, rest) => if rest.length < n then none else some (rest.take n, rest.drop n)

theorem readField_field (tag : UInt8) {content : List UInt8}
    (h : byteLength content.length ≤ 126) (rest : List UInt8) :
    readField tag (field tag content ++ rest) = some (content, rest) := by
  have hlen := readLength_lengthOctets h (content ++ rest)
  have henough : ¬ (content ++ rest).length < content.length := by
    rw [List.length_append]
    omega
  simp only [field, List.cons_append, List.append_assoc, readField, ne_eq, not_true_eq_false,
    if_false, hlen, if_neg henough, List.take_left', List.drop_left']

theorem length_field {tag : UInt8} {content : List UInt8} (h : content.length < 128) :
    (field tag content).length = content.length + 2 := by
  rw [field, List.length_cons, List.length_append, length_lengthOctets h]
  omega

/-! ## 3. Integers -/

/-- The content of an INTEGER that is not negative: its top bit is clear. -/
def integerOctets (n : Nat) : List UInt8 := toBytes (bitLength n / 8 + 1) n

/-- The number of the content of an INTEGER, unless it is empty or negative. -/
def readInteger : List UInt8 → Option Nat
  | [] => none
  | b :: rest => if 128 ≤ b.toNat then none else some (ofBytes (b :: rest))

theorem readInteger_integerOctets (n : Nat) : readInteger (integerOctets n) = some n := by
  have hbits : n < 2 ^ (8 * (bitLength n / 8) + 7) := bitLength_le_iff.mp (by omega)
  obtain ⟨m, hm⟩ : ∃ m, bitLength n / 8 = m := ⟨_, rfl⟩
  rw [hm, pow_add, ← pow_256] at hbits
  have htop : n / 256 ^ m < 128 := Nat.div_lt_of_lt_mul hbits
  have hfits : n < 256 ^ (m + 1) := by
    rw [pow_succ]
    omega
  have hclear : ¬ 128 ≤ (UInt8.ofNat (n / 256 ^ m)).toNat := by
    rw [UInt8.toNat_ofNat', Nat.mod_eq_of_lt (Nat.lt_trans htop (by decide))]
    exact Nat.not_le_of_lt htop
  rw [integerOctets, hm, toBytes_succ_eq_cons, readInteger, if_neg hclear,
    ← toBytes_succ_eq_cons, ofBytes_toBytes hfits]

/-- A number of so many octets takes at most one more. -/
theorem length_integerOctets_le {n len : Nat} (h : n < 256 ^ len) :
    (integerOctets n).length ≤ len + 1 := by
  have hbits : bitLength n ≤ 8 * len := bitLength_le_iff.mpr (pow_256 len ▸ h)
  rw [integerOctets, length_toBytes]
  omega

/-! ## 4. A sequence of two integers -/

/-- The content of the sequence. -/
def pairContent (r s : Nat) : List UInt8 := field 2 (integerOctets r) ++ field 2 (integerOctets s)

/-- SEQUENCE { r INTEGER, s INTEGER }. -/
def pair (r s : Nat) : List UInt8 := field 48 (pairContent r s)

/-- The two integers of a sequence that has no others.  What follows the sequence is not read. -/
def readPair (der : List UInt8) : Option (Nat × Nat) :=
  match readField 48 der with
  | none => none
  | some (content, _) =>
    match readField 2 content with
    | none => none
    | some (r, rest) =>
      match readField 2 rest with
      | none => none
      | some (s, rest) =>
        match rest, readInteger r, readInteger s with
        | [], some r, some s => some (r, s)
        | _, _, _ => none

theorem readPair_pair {r s : Nat} (h : byteLength (pairContent r s).length ≤ 126) :
    readPair (pair r s) = some (r, s) := by
  have hparts : (integerOctets r).length ≤ (pairContent r s).length ∧
      (integerOctets s).length ≤ (pairContent r s).length := by
    simp only [pairContent, field, List.length_append, List.length_cons]
    omega
  have hfits : ∀ n, n ≤ (pairContent r s).length → byteLength n ≤ 126 := by
    intro n hn
    rw [byteLength_le_iff] at h ⊢
    exact Nat.lt_of_le_of_lt hn h
  have hseq : readField 48 (pair r s) = some (pairContent r s, []) := by
    have hread := readField_field 48 h []
    rwa [List.append_nil] at hread
  have hr : readField 2 (pairContent r s) = some (integerOctets r, field 2 (integerOctets s)) :=
    readField_field 2 (hfits _ hparts.1) _
  have hs : readField 2 (field 2 (integerOctets s)) = some (integerOctets s, []) := by
    have hread := readField_field 2 (hfits _ hparts.2) []
    rwa [List.append_nil] at hread
  simp only [readPair, hseq, hr, hs, readInteger_integerOctets]

end Der

/-
# The base64url codec of the test build

`ngx_encode_base64url` and `ngx_decode_base64url` as `tests/ngx_compat/ngx_stub.c` gives them:
an encoder that takes three octets at a time, and a decoder that shifts six bits at a time into
an `int` it never clears, so the accumulator wraps around.

Only the low bits of the accumulator are ever read.  A whole group of four characters leaves no
pending bits, so decoding undoes encoding whatever is left in the accumulator
(`stubDecode_encode`), and the codec is an instance of what the library relies on
(`stubCodec_lawful`).
-/
import NxeJwx.Env

namespace NxeJwx

/-! ## 1. The code -/

/-- `alphabet[i]`. -/
def stubAlphabet (i : Nat) : UInt8 := base64urlAlphabet.getD i 0

/-- `ngx_encode_base64url`. -/
def stubEncode : Bytes → Bytes
  | s0 :: s1 :: s2 :: rest =>
    stubAlphabet (s0.toNat >>> 2) ::
      stubAlphabet (((s0.toNat &&& 3) <<< 4) ||| (s1.toNat >>> 4)) ::
      stubAlphabet (((s1.toNat &&& 15) <<< 2) ||| (s2.toNat >>> 6)) ::
      stubAlphabet (s2.toNat &&& 63) :: stubEncode rest
  | [s0, s1] =>
    [ stubAlphabet (s0.toNat >>> 2),
      stubAlphabet (((s0.toNat &&& 3) <<< 4) ||| (s1.toNat >>> 4)),
      stubAlphabet ((s1.toNat &&& 15) <<< 2) ]
  | [s0] => [stubAlphabet (s0.toNat >>> 2), stubAlphabet ((s0.toNat &&& 3) <<< 4)]
  | [] => []

/-- `ngx_stub_b64url_char`; `none` is `-1`. -/
def stubChar (c : UInt8) : Option Nat :=
  if 65 ≤ c ∧ c ≤ 90 then some (c.toNat - 65)
  else if 97 ≤ c ∧ c ≤ 122 then some (c.toNat - 97 + 26)
  else if 48 ≤ c ∧ c ≤ 57 then some (c.toNat - 48 + 52)
  else if c = 45 then some 62
  else if c = 95 then some 63
  else none

/-- The loop of `ngx_decode_base64url`, from the accumulator `buf` with `bits` pending bits on.
The accumulator is a 32-bit integer. -/
def stubDecodeLoop : Bytes → Nat → Nat → Option Bytes
  | [], _, _ => some []
  | ch :: src, buf, bits =>
    if ch = 61 then stubDecodeLoop src buf bits
    else
      match stubChar ch with
      | none => none
      | some v =>
        let buf := ((buf <<< 6) ||| v) % 2 ^ 32
        let bits := bits + 6
        if bits ≥ 8 then
          (stubDecodeLoop src buf (bits - 8)).map
            fun out => UInt8.ofNat ((buf >>> (bits - 8)) &&& 255) :: out
        else stubDecodeLoop src buf bits

/-- `ngx_decode_base64url`. -/
def stubDecode (src : Bytes) : Option Bytes := stubDecodeLoop src 0 0

/-- The codec of the test build. -/
def stubCodec : Base64url := ⟨stubEncode, stubDecode⟩

/-! ## 2. Bits as arithmetic -/

theorem and_three (n : Nat) : n &&& 3 = n % 4 := Nat.and_two_pow_sub_one_eq_mod n 2

theorem and_fifteen (n : Nat) : n &&& 15 = n % 16 := Nat.and_two_pow_sub_one_eq_mod n 4

theorem and_sixtyThree (n : Nat) : n &&& 63 = n % 64 := Nat.and_two_pow_sub_one_eq_mod n 6

theorem and_byte (n : Nat) : n &&& 255 = n % 256 := Nat.and_two_pow_sub_one_eq_mod n 8

/-- Shifting by `i` and or-ing in something below `2 ^ i` is multiplying and adding. -/
theorem shiftLeft_or {a b : Nat} (i : Nat) (h : b < 2 ^ i) : (a <<< i) ||| b = a * 2 ^ i + b := by
  rw [← Nat.shiftLeft_add_eq_or_of_lt h, Nat.shiftLeft_eq]

/-- What the encoder writes, as arithmetic on the octets. -/
theorem stubEncode_three (s0 s1 s2 : UInt8) (rest : Bytes) :
    stubEncode (s0 :: s1 :: s2 :: rest) =
      stubAlphabet (s0.toNat / 4) :: stubAlphabet (s0.toNat % 4 * 16 + s1.toNat / 16) ::
        stubAlphabet (s1.toNat % 16 * 4 + s2.toNat / 64) :: stubAlphabet (s2.toNat % 64) ::
        stubEncode rest := by
  have h1 := s1.toNat_lt
  have h2 := s2.toNat_lt
  rw [stubEncode, and_three, and_fifteen, and_sixtyThree, shiftLeft_or, shiftLeft_or]
  · simp only [Nat.shiftRight_eq_div_pow, Nat.reducePow]
  · rw [Nat.shiftRight_eq_div_pow]; omega
  · rw [Nat.shiftRight_eq_div_pow]; omega

theorem stubEncode_two (s0 s1 : UInt8) : stubEncode [s0, s1] =
    [ stubAlphabet (s0.toNat / 4), stubAlphabet (s0.toNat % 4 * 16 + s1.toNat / 16),
      stubAlphabet (s1.toNat % 16 * 4) ] := by
  have h1 := s1.toNat_lt
  rw [stubEncode, and_three, and_fifteen, shiftLeft_or, Nat.shiftLeft_eq]
  · simp only [Nat.shiftRight_eq_div_pow, Nat.reducePow]
  · rw [Nat.shiftRight_eq_div_pow]; omega

theorem stubEncode_one (s0 : UInt8) : stubEncode [s0] =
    [stubAlphabet (s0.toNat / 4), stubAlphabet (s0.toNat % 4 * 16)] := by
  rw [stubEncode, and_three, Nat.shiftLeft_eq, Nat.shiftRight_eq_div_pow]

/-- The characters of the alphabet are read back as their positions. -/
theorem stubChar_alphabet : ∀ i < 64, stubChar (stubAlphabet i) = some i ∧ stubAlphabet i ≠ 61 ∧
    stubAlphabet i ∈ base64urlAlphabet := by decide +kernel

/-- A character that is read is the one at the position it is read as. -/
theorem stubChar_eq_some {c : UInt8} {v : Nat} (h : stubChar c = some v) :
    v < 64 ∧ stubAlphabet v = c := by
  have hall : ∀ n < 256, ∀ v ∈ stubChar (UInt8.ofNat n),
      v < 64 ∧ stubAlphabet v = UInt8.ofNat n := by decide +kernel
  have hc := hall c.toNat c.toNat_lt v
  rw [UInt8.ofNat_toNat] at hc
  exact hc h

/-- The characters that are read are those of the alphabet. -/
theorem stubChar_isSome_iff {c : UInt8} :
    (stubChar c).isSome = true ↔ c ∈ base64urlAlphabet := by
  constructor
  · intro h
    obtain ⟨v, hv⟩ := Option.isSome_iff_exists.mp h
    obtain ⟨hlt, rfl⟩ := stubChar_eq_some hv
    exact (stubChar_alphabet v hlt).2.2
  · intro h
    obtain ⟨i, hi, rfl⟩ := List.mem_iff_getElem.mp h
    have hpos : stubAlphabet i = base64urlAlphabet[i] := by
      rw [stubAlphabet, List.getD_eq_getElem?_getD, List.getElem?_eq_getElem hi, Option.getD_some]
    rw [← hpos, (stubChar_alphabet i hi).1]
    rfl

/-- One character of the alphabet when fewer than two bits are pending: none is written. -/
theorem stubDecodeLoop_wait {i : Nat} (h : i < 64) (src : Bytes) (buf : Nat) {bits : Nat}
    (hb : bits < 2) : stubDecodeLoop (stubAlphabet i :: src) buf bits =
      stubDecodeLoop src ((buf * 64 + i) % 2 ^ 32) (bits + 6) := by
  obtain ⟨hc, hp, -⟩ := stubChar_alphabet i h
  have hbuf : (buf <<< 6) ||| i = buf * 64 + i := shiftLeft_or 6 h
  simp only [stubDecodeLoop, if_neg hp, hc, hbuf, if_neg (show ¬ bits + 6 ≥ 8 by omega)]

/-- One character of the alphabet when at least two bits are pending: an octet is written, which
depends on the low bits of the accumulator only. -/
theorem stubDecodeLoop_emit {i : Nat} (h : i < 64) (src : Bytes) (buf : Nat) {bits : Nat}
    (hb : 2 ≤ bits) : stubDecodeLoop (stubAlphabet i :: src) buf bits =
      (stubDecodeLoop src ((buf * 64 + i) % 2 ^ 32) (bits - 2)).map
        fun out => UInt8.ofNat ((buf * 64 + i) % 2 ^ 32 / 2 ^ (bits - 2) % 256) :: out := by
  obtain ⟨hc, hp, -⟩ := stubChar_alphabet i h
  have hbuf : (buf <<< 6) ||| i = buf * 64 + i := shiftLeft_or 6 h
  have hbits : bits + 6 - 8 = bits - 2 := by omega
  simp only [stubDecodeLoop, if_neg hp, hc, hbuf, if_pos (show bits + 6 ≥ 8 by omega), hbits,
    and_byte, Nat.shiftRight_eq_div_pow]

/-! ## 3. Decoding undoes encoding -/

theorem ofNat_eq_of_toNat {n : Nat} {x : UInt8} (h : n = x.toNat) : UInt8.ofNat n = x := by
  rw [h, UInt8.ofNat_toNat]

/-- From any accumulator without pending bits, the loop reads back what the encoder wrote. -/
theorem stubDecodeLoop_encode (b : Bytes) (buf : Nat) :
    stubDecodeLoop (stubEncode b) buf 0 = some b := by
  induction b using stubEncode.induct generalizing buf with
  | case1 s0 s1 s2 rest ih =>
    have h0 := s0.toNat_lt
    have h1 := s1.toNat_lt
    have h2 := s2.toNat_lt
    rw [stubEncode_three, stubDecodeLoop_wait (by omega) _ _ (by omega),
      stubDecodeLoop_emit (by omega) _ _ (by omega), stubDecodeLoop_emit (by omega) _ _ (by omega),
      stubDecodeLoop_emit (by omega) _ _ (by omega), ih]
    rw [Option.map_some, Option.map_some, Option.map_some, ofNat_eq_of_toNat (x := s0),
      ofNat_eq_of_toNat (x := s1), ofNat_eq_of_toNat (x := s2)]
    · omega
    · omega
    · omega
  | case2 s0 s1 =>
    have h0 := s0.toNat_lt
    have h1 := s1.toNat_lt
    rw [stubEncode_two, stubDecodeLoop_wait (by omega) _ _ (by omega),
      stubDecodeLoop_emit (by omega) _ _ (by omega), stubDecodeLoop_emit (by omega) _ _ (by omega),
      stubDecodeLoop, Option.map_some, Option.map_some, ofNat_eq_of_toNat (x := s0),
      ofNat_eq_of_toNat (x := s1)]
    · omega
    · omega
  | case3 s0 =>
    have h0 := s0.toNat_lt
    rw [stubEncode_one, stubDecodeLoop_wait (by omega) _ _ (by omega),
      stubDecodeLoop_emit (by omega) _ _ (by omega), stubDecodeLoop, Option.map_some,
      ofNat_eq_of_toNat (x := s0)]
    omega
  | case4 => rfl

/-! ## 4. The codec is lawful -/

theorem stubAlphabet_mem {i : Nat} (h : i < 64) : stubAlphabet i ∈ base64urlAlphabet :=
  (stubChar_alphabet i h).2.2

/-- The encoder writes characters of the alphabet only. -/
theorem stubEncode_alphabet (b : Bytes) : ∀ c ∈ stubEncode b, c ∈ base64urlAlphabet := by
  induction b using stubEncode.induct with
  | case1 s0 s1 s2 rest ih =>
    intro c hc
    have h0 := s0.toNat_lt
    have h1 := s1.toNat_lt
    have h2 := s2.toNat_lt
    simp only [stubEncode_three, List.mem_cons] at hc
    rcases hc with rfl | rfl | rfl | rfl | hc
    · exact stubAlphabet_mem (by omega)
    · exact stubAlphabet_mem (by omega)
    · exact stubAlphabet_mem (by omega)
    · exact stubAlphabet_mem (by omega)
    · exact ih c hc
  | case2 s0 s1 =>
    intro c hc
    have h0 := s0.toNat_lt
    have h1 := s1.toNat_lt
    simp only [stubEncode_two, List.mem_cons, List.not_mem_nil, or_false] at hc
    rcases hc with rfl | rfl | rfl
    · exact stubAlphabet_mem (by omega)
    · exact stubAlphabet_mem (by omega)
    · exact stubAlphabet_mem (by omega)
  | case3 s0 =>
    intro c hc
    have h0 := s0.toNat_lt
    simp only [stubEncode_one, List.mem_cons, List.not_mem_nil, or_false] at hc
    rcases hc with rfl | rfl
    · exact stubAlphabet_mem (by omega)
    · exact stubAlphabet_mem (by omega)
  | case4 =>
    intro c hc
    exact absurd hc (by simp [stubEncode])

/-- Four characters for every three octets, rounded up. -/
theorem length_stubEncode (b : Bytes) : (stubEncode b).length = (4 * b.length + 2) / 3 := by
  induction b using stubEncode.induct with
  | case1 s0 s1 s2 rest ih =>
    simp only [stubEncode_three, List.length_cons, ih]
    omega
  | case2 s0 s1 => simp [stubEncode_two]
  | case3 s0 => simp [stubEncode_one]
  | case4 => rfl

/-- The codec of the test build has the properties the library relies on. -/
theorem stubCodec_lawful : stubCodec.Lawful where
  decode_encode b := stubDecodeLoop_encode b 0
  alphabet := stubEncode_alphabet
  length_encode := length_stubEncode

end NxeJwx

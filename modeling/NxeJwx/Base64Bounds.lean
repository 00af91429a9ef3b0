/-
# The base64url layer stays within its buffers

The wrappers `nxe_jwx_encode_b64url` and `nxe_jwx_decode_b64url` allocate by a formula on the
length of the input and then let the codec of the test build write.  Here the decoder keeps the
locals the code has, the accumulator being a 32-bit `int` whose right shift is arithmetic, and
says what it has written also when it rejects its input.

* An octet is cut out of the low bits of the accumulator, so that neither the sign nor what the
  shifts have pushed out matters (`sshiftRight_and_byte`), and the loop returns what
  `stubDecodeLoop` does (`decodeChars_eq`).
* Every digit is pending or written: eight bits for an octet, six for a digit (`Counted`).  This
  bounds what is written before a rejection as well (`counted_decodeChars`).
* The two together: decoding gives back what was encoded, and neither direction writes more than
  was allocated (`base64url_within_buffers`).
-/
import NxeJwx.Base64Stub
import NxeJwx.Decode
import NxeJwx.Thumbprint

namespace NxeJwx

/-! ## 1. The code -/

/-- `ngx_base64_decoded_length`. -/
def base64DecodedLength (len : Nat) : Nat := len * 3 / 4

/-- `ngx_base64_encoded_length`. -/
def base64EncodedLength (len : Nat) : Nat := (len + 2) / 3 * 4

/-- The locals of `ngx_decode_base64url`: the accumulator, the number of pending bits, and what
was written through `out`. -/
structure DecodeLocals where
  buf : BitVec 32
  bits : Nat
  out : Bytes

/-- Before the first character. -/
def decodeStart : DecodeLocals := ⟨0, 0, []⟩

/-- What the loop does with the digit `v`. -/
def DecodeLocals.shift (l : DecodeLocals) (v : Nat) : DecodeLocals :=
  let buf := (l.buf <<< 6) ||| BitVec.ofNat 32 v
  let bits := l.bits + 6
  if bits ≥ 8 then
    ⟨buf, bits - 8, l.out ++ [UInt8.ofNat (buf.sshiftRight (bits - 8) &&& 255#32).toNat]⟩
  else ⟨buf, bits, l.out⟩

/-- The loop of `ngx_decode_base64url`: its return code, and the locals it ends with. -/
def decodeChars : Bytes → DecodeLocals → Rc × DecodeLocals
  | [], l => (.ok, l)
  | ch :: src, l =>
    if ch = 61 then decodeChars src l
    else
      match stubChar ch with
      | none => (.error, l)
      | some v => decodeChars src (l.shift v)

/-- What `ngx_decode_base64url` hands out: the octets written, unless it fails. -/
def handedOut : Rc × DecodeLocals → Option Bytes
  | (.ok, l) => some l.out
  | (_, _) => none

/-- What a wrapper has done: the size it allocated, the octets the codec has written, and the
string it hands out, unless it fails. -/
structure BufferRun where
  size : Nat
  written : Bytes
  dst : Option Bytes

/-- `nxe_jwx_encode_b64url`, with the fault of its buffer. -/
def encodeB64urlRun (fault : Bool) (src : Bytes) : BufferRun :=
  let size := base64EncodedLength src.length
  if fault then ⟨size, [], none⟩ else ⟨size, stubEncode src, some (stubEncode src)⟩

/-- `nxe_jwx_decode_b64url`, with the fault of its buffer. -/
def decodeB64urlRun (fault : Bool) (src : Bytes) : BufferRun :=
  let size := base64DecodedLength src.length
  if fault then ⟨size, [], none⟩
  else
    let run := decodeChars src decodeStart
    ⟨size, run.2.out, handedOut run⟩

/-! ## 2. The accumulator -/

/-- The low octet of a shifted `int` is that of the shifted bit pattern: the copies of the sign
come in above it. -/
theorem sshiftRight_and_byte (b : BitVec 32) {k : Nat} (hk : k ≤ 24) :
    (b.sshiftRight k &&& 255#32).toNat = (b.toNat >>> k) &&& 255 := by
  have h255 : ∀ i, Nat.testBit 255 i = decide (i < 8) := Nat.testBit_two_pow_sub_one 8
  apply Nat.eq_of_testBit_eq
  intro i
  rw [BitVec.toNat_and, Nat.testBit_and, Nat.testBit_and, BitVec.testBit_toNat,
    BitVec.testBit_toNat, BitVec.getLsbD_ofNat, BitVec.getLsbD_sshiftRight, h255,
    Nat.testBit_shiftRight, BitVec.testBit_toNat]
  by_cases hi : i < 8
  · rw [if_pos (show k + i < 32 by omega)]
    simp [show i < 32 by omega, show ¬ 32 ≤ i by omega]
  · simp [hi]

/-- Shifting a digit in wraps around. -/
theorem toNat_shiftLeft_or (b : BitVec 32) (v : Nat) :
    ((b <<< 6) ||| BitVec.ofNat 32 v).toNat = ((b.toNat <<< 6) ||| v) % 2 ^ 32 := by
  rw [BitVec.toNat_or, BitVec.toNat_shiftLeft, BitVec.toNat_ofNat, Nat.or_mod_two_pow]

/-- With at least two bits pending, a digit completes an octet. -/
theorem DecodeLocals.shift_emit {l : DecodeLocals} (v : Nat) (h : l.bits < 8) (h2 : 2 ≤ l.bits) :
    l.shift v = ⟨(l.buf <<< 6) ||| BitVec.ofNat 32 v, l.bits - 2, l.out ++
      [UInt8.ofNat (((((l.buf.toNat <<< 6) ||| v) % 2 ^ 32) >>> (l.bits - 2)) &&& 255)]⟩ := by
  have hbits : l.bits + 6 - 8 = l.bits - 2 := by omega
  simp only [shift, if_pos (show l.bits + 6 ≥ 8 by omega), hbits,
    sshiftRight_and_byte _ (show l.bits - 2 ≤ 24 by omega), toNat_shiftLeft_or]

/-- With fewer, it waits. -/
theorem DecodeLocals.shift_wait {l : DecodeLocals} (v : Nat) (h2 : l.bits < 2) :
    l.shift v = ⟨(l.buf <<< 6) ||| BitVec.ofNat 32 v, l.bits + 6, l.out⟩ := by
  simp only [shift, if_neg (show ¬ l.bits + 6 ≥ 8 by omega)]

/-- The loop hands out what `stubDecodeLoop` returns, after what was written before. -/
theorem handedOut_decodeChars (src : Bytes) {l : DecodeLocals} (h : l.bits < 8) :
    handedOut (decodeChars src l) =
      (stubDecodeLoop src l.buf.toNat l.bits).map (l.out ++ ·) := by
  induction src generalizing l with
  | nil => simp [decodeChars, handedOut, stubDecodeLoop]
  | cons ch src ih =>
    by_cases hpad : ch = 61
    · simp only [decodeChars, stubDecodeLoop, if_pos hpad]
      exact ih h
    simp only [decodeChars, stubDecodeLoop, if_neg hpad]
    cases stubChar ch with
    | none => rfl
    | some v =>
      dsimp only
      by_cases h2 : 2 ≤ l.bits
      · have hbits : l.bits + 6 - 8 = l.bits - 2 := by omega
        rw [l.shift_emit v h h2, ih (show l.bits - 2 < 8 by omega)]
        simp only [toNat_shiftLeft_or, if_pos (show l.bits + 6 ≥ 8 by omega), hbits,
          Option.map_map, Function.comp_def, List.append_assoc, List.singleton_append]
      · rw [l.shift_wait v (by omega), ih (show l.bits + 6 < 8 by omega)]
        simp only [toNat_shiftLeft_or, if_neg (show ¬ l.bits + 6 ≥ 8 by omega)]

/-! ## 3. What is written -/

/-- After `n` digits: every bit of theirs is pending or in an octet that was written. -/
structure DecodeLocals.Counted (n : Nat) (l : DecodeLocals) : Prop where
  total : 8 * l.out.length + l.bits = 6 * n
  pending : l.bits < 8

theorem DecodeLocals.Counted.shift {n : Nat} {l : DecodeLocals} (h : l.Counted n) (v : Nat) :
    (l.shift v).Counted (n + 1) := by
  obtain ⟨htotal, hpending⟩ := h
  by_cases h2 : 2 ≤ l.bits
  · rw [l.shift_emit v hpending h2]
    refine ⟨?_, show l.bits - 2 < 8 by omega⟩
    show 8 * (l.out ++ [_]).length + (l.bits - 2) = 6 * (n + 1)
    rw [List.length_append, List.length_singleton]
    omega
  · rw [l.shift_wait v (by omega)]
    exact ⟨show 8 * l.out.length + (l.bits + 6) = 6 * (n + 1) by omega,
      show l.bits + 6 < 8 by omega⟩

/-- However the loop ends, it has counted at most as many digits as there are characters. -/
theorem counted_decodeChars (src : Bytes) {n : Nat} {l : DecodeLocals} (h : l.Counted n) :
    ∃ m ≤ src.length, (decodeChars src l).2.Counted (n + m) := by
  induction src generalizing n l with
  | nil => exact ⟨0, Nat.zero_le _, h⟩
  | cons ch src ih =>
    by_cases hpad : ch = 61
    · obtain ⟨m, hm, hcount⟩ := ih h
      simp only [decodeChars, if_pos hpad]
      exact ⟨m, Nat.le_succ_of_le hm, hcount⟩
    simp only [decodeChars, if_neg hpad]
    cases stubChar ch with
    | none => exact ⟨0, Nat.zero_le _, h⟩
    | some v =>
      obtain ⟨m, hm, hcount⟩ := ih (h.shift v)
      refine ⟨m + 1, Nat.succ_le_succ hm, ?_⟩
      rwa [Nat.add_right_comm, Nat.add_assoc] at hcount

/-- The decoder writes no more than `ngx_base64_decoded_length` octets. -/
theorem length_out_decodeChars_le (src : Bytes) :
    (decodeChars src decodeStart).2.out.length ≤ base64DecodedLength src.length := by
  have hstart : decodeStart.Counted 0 := ⟨rfl, by decide⟩
  obtain ⟨m, hm, hcount⟩ := counted_decodeChars src hstart
  have htotal := hcount.total
  unfold base64DecodedLength
  omega

/-- The encoder writes no more than `ngx_base64_encoded_length` octets. -/
theorem length_stubEncode_le (src : Bytes) :
    (stubEncode src).length ≤ base64EncodedLength src.length := by
  rw [length_stubEncode, base64EncodedLength]
  omega

/-! ## 4. The wrappers -/

/-- The wrapper of the decoder hands out what `stubDecode` returns. -/
theorem dst_decodeB64urlRun (src : Bytes) :
    (decodeB64urlRun false src).dst = stubDecode src := by
  have hloop : handedOut (decodeChars src decodeStart) = (stubDecodeLoop src 0 0).map ([] ++ ·) :=
    handedOut_decodeChars src (by decide)
  simp only [List.nil_append, Option.map_id'] at hloop
  exact hloop

section Wrappers

variable {PKey : Type} (E : Env PKey) (fault : Bool) (src : Bytes)

/-- With the codec of the test build, the wrappers hand out what the runs do. -/
theorem encodeB64url_eq_run :
    encodeB64url { E with b64 := stubCodec } fault src = (encodeB64urlRun fault src).dst := by
  cases fault <;> rfl

theorem decodeB64url_eq_run :
    decodeB64url { E with b64 := stubCodec } fault src = (decodeB64urlRun fault src).dst := by
  cases fault with
  | true => rfl
  | false => exact (dst_decodeB64urlRun src).symm

end Wrappers

theorem alphabet_no_separator : ∀ c ∈ base64urlAlphabet, c ≠ 46 ∧ c ≠ 61 := by decide +kernel

/-- What the encoder's wrapper hands out, the decoder's wrapper takes back. -/
theorem decodeB64urlRun_stubEncode (b : Bytes) :
    (decodeB64urlRun false (stubEncode b)).dst = some b :=
  (dst_decodeB64urlRun _).trans (stubCodec_lawful.decode_encode b)

/-- A wrapper allocates by the formula, and its codec writes no more than that. -/
structure BufferRun.Within (run : BufferRun) (size : Nat) : Prop where
  allocated : run.size = size
  written : run.written.length ≤ run.size

theorem encodeB64urlRun_within (fault : Bool) (src : Bytes) :
    (encodeB64urlRun fault src).Within (base64EncodedLength src.length) := by
  cases fault with
  | true => exact ⟨rfl, Nat.zero_le _⟩
  | false => exact ⟨rfl, length_stubEncode_le src⟩

theorem decodeB64urlRun_within (fault : Bool) (src : Bytes) :
    (decodeB64urlRun fault src).Within (base64DecodedLength src.length) := by
  cases fault with
  | true => exact ⟨rfl, Nat.zero_le _⟩
  | false => exact ⟨rfl, length_out_decodeChars_le src⟩

/-- **The layer is lossless and stays within its buffers.**  What is encoded is decoded again; the
encoding has characters of the alphabet only and determines the input; and whatever the input is,
and whether or not it is rejected, what is written fits the size that was allocated for it. -/
theorem base64url_within_buffers :
    (∀ b, ∃ t, (encodeB64urlRun false b).dst = some t ∧ (decodeB64urlRun false t).dst = some b ∧
      ∀ c ∈ t, c ∈ base64urlAlphabet ∧ c ≠ 46 ∧ c ≠ 61) ∧
    (Function.Injective fun b => (encodeB64urlRun false b).dst) ∧
    ∀ fault src, (encodeB64urlRun fault src).Within (base64EncodedLength src.length) ∧
      (decodeB64urlRun fault src).Within (base64DecodedLength src.length) := by
  refine ⟨fun b => ⟨stubEncode b, rfl, decodeB64urlRun_stubEncode b, fun c hc => ?_⟩, ?_,
    fun fault src => ⟨encodeB64urlRun_within fault src, decodeB64urlRun_within fault src⟩⟩
  · have hmem := stubEncode_alphabet b c hc
    exact ⟨hmem, alphabet_no_separator c hmem⟩
  · intro b b' h
    have henc : stubEncode b = stubEncode b' := Option.some.inj h
    exact stubCodec_lawful.encode_injective henc

end NxeJwx

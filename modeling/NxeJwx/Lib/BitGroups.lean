/-
# Digits as groups of bits

A number below `2 ^ w` is `w` bits, most significant first; a list of such digits is a stream of
bits, and a stream is cut into groups of `w` bits again, which leaves fewer than `w` bits dangling.

Reading a stream at another width is what a radix-64 codec does.  From width `v` to a smaller `w`
the stream is padded with zeros; on the way back the bits that dangle are dropped, so a list of
digits comes back exactly if it is what padding leaves (`regrouped_eq_iff`).
-/
import Mathlib.Data.Nat.Bitwise
import Mathlib.Data.List.Basic
import Mathlib.Tactic.Common

namespace BitGroups

/-! ## 1. One digit -/

/-- The low `w` bits of `n`, most significant first. -/
def ofNat : Nat → Nat → List Bool
  | 0, _ => []
  | w + 1, n => n.testBit w :: ofNat w n

/-- The number that bits stand for. -/
def value : List Bool → Nat
  | [] => 0
  | b :: bs => b.toNat * 2 ^ bs.length + value bs

@[simp] theorem length_ofNat (w n : Nat) : (ofNat w n).length = w := by
  induction w with
  | zero => rfl
  | succ w ih => rw [ofNat, List.length_cons, ih]

theorem value_lt (bs : List Bool) : value bs < 2 ^ bs.length := by
  induction bs with
  | nil => exact Nat.one_pos
  | cons b bs ih =>
    rw [value, List.length_cons, Nat.pow_succ]
    cases b with
    | false => rw [Bool.toNat_false]; omega
    | true => rw [Bool.toNat_true]; omega

theorem value_ofNat (w n : Nat) : value (ofNat w n) = n % 2 ^ w := by
  induction w with
  | zero => rw [Nat.pow_zero, Nat.mod_one]; rfl
  | succ w ih =>
    rw [ofNat, value, length_ofNat, ih, Nat.toNat_testBit, Nat.pow_succ, Nat.mod_mul,
      Nat.mul_comm, Nat.add_comm]

theorem value_append (as bs : List Bool) :
    value (as ++ bs) = value as * 2 ^ bs.length + value bs := by
  induction as with
  | nil => simp [value]
  | cons a as ih =>
    rw [List.cons_append, value, value, ih, List.length_append, Nat.pow_add, Nat.add_mul,
      Nat.mul_assoc, Nat.add_assoc]

/-- Bits of one length are determined by their value. -/
theorem value_inj {as bs : List Bool} (hlen : as.length = bs.length) (h : value as = value bs) :
    as = bs := by
  induction as generalizing bs with
  | nil => exact (List.length_eq_zero_iff.mp hlen.symm).symm
  | cons a as ih =>
    cases bs with
    | nil => exact absurd hlen (by simp)
    | cons b bs =>
      have htail : as.length = bs.length := Nat.succ.inj hlen
      have ha := value_lt as
      have hb := value_lt bs
      rw [value, value, htail] at h
      rw [htail] at ha
      cases a <;> cases b <;> simp only [Bool.toNat_false, Bool.toNat_true] at h
      · rw [ih htail (by omega)]
      · omega
      · omega
      · rw [ih htail (by omega)]

theorem ofNat_value (bs : List Bool) : ofNat bs.length (value bs) = bs := by
  refine value_inj (length_ofNat ..) ?_
  rw [value_ofNat, Nat.mod_eq_of_lt (value_lt bs)]

/-! ## 2. Streams and groups -/

/-- The bits of a list of digits. -/
def stream (w : Nat) (ds : List Nat) : List Bool := ds.flatMap (ofNat w)

/-- The whole groups of `w` bits. -/
def groups (w : Nat) (bs : List Bool) : List Nat :=
  (List.range (bs.length / w)).map fun i => value ((bs.drop (i * w)).take w)

/-- The bits in whole groups. -/
def whole (w : Nat) (bs : List Bool) : List Bool := bs.take (bs.length / w * w)

/-- The bits after the last whole group. -/
def dangling (w : Nat) (bs : List Bool) : List Bool := bs.drop (bs.length / w * w)

/-- The bits, padded with zeros to whole groups. -/
def padded (w : Nat) (bs : List Bool) : List Bool :=
  bs ++ List.replicate ((w - bs.length % w) % w) false

@[simp] theorem stream_nil (w : Nat) : stream w [] = [] := rfl

theorem stream_cons (w d : Nat) (ds : List Nat) : stream w (d :: ds) = ofNat w d ++ stream w ds :=
  rfl

theorem stream_append (w : Nat) (as bs : List Nat) :
    stream w (as ++ bs) = stream w as ++ stream w bs :=
  List.flatMap_append

@[simp] theorem length_stream (w : Nat) (ds : List Nat) :
    (stream w ds).length = w * ds.length := by
  induction ds with
  | nil => rfl
  | cons d ds ih =>
    rw [stream_cons, List.length_append, length_ofNat, ih, List.length_cons, Nat.mul_succ,
      Nat.add_comm]

theorem whole_append_dangling (w : Nat) (bs : List Bool) : whole w bs ++ dangling w bs = bs :=
  List.take_append_drop ..

/-- Fewer than `w` bits are no group. -/
theorem groups_of_lt {w : Nat} {bs : List Bool} (h : bs.length < w) : groups w bs = [] := by
  rw [groups, Nat.div_eq_of_lt h]
  rfl

/-- The first group. -/
theorem groups_append {w : Nat} (hw : 0 < w) {as : List Bool} (ha : as.length = w)
    (bs : List Bool) : groups w (as ++ bs) = value as :: groups w bs := by
  have hdiv : (as ++ bs).length / w = bs.length / w + 1 := by
    rw [List.length_append, ha, Nat.add_comm, Nat.add_div_right _ hw]
  rw [groups, hdiv, List.range_succ_eq_map, List.map_cons, List.map_map, Nat.zero_mul,
    List.drop_zero, List.take_left' ha]
  refine congrArg _ (List.map_congr_left fun i hi => ?_)
  rw [Function.comp_apply, Nat.succ_mul, Nat.add_comm, ← List.drop_drop, List.drop_left' ha]

/-- Cutting off one group after the other. -/
theorem groups_induction {w : Nat} (hw : 0 < w) {P : List Bool → Prop}
    (short : ∀ bs, bs.length < w → P bs)
    (group : ∀ as bs, as.length = w → P bs → P (as ++ bs)) (bs : List Bool) : P bs := by
  by_cases h : bs.length < w
  · exact short bs h
  · have hlen : (bs.take w).length = w := by rw [List.length_take]; omega
    rw [← List.take_append_drop w bs]
    exact group _ _ hlen (groups_induction hw short group (bs.drop w))
termination_by bs.length
decreasing_by
  rw [List.length_drop]
  omega

/-- Groups of a stream are its digits. -/
theorem groups_stream_append {w : Nat} (hw : 0 < w) {ds : List Nat} (h : ∀ d ∈ ds, d < 2 ^ w)
    (bs : List Bool) : groups w (stream w ds ++ bs) = ds ++ groups w bs := by
  induction ds with
  | nil => rfl
  | cons d ds ih =>
    rw [stream_cons, List.append_assoc, groups_append hw (length_ofNat w d), value_ofNat,
      Nat.mod_eq_of_lt (h d List.mem_cons_self), List.cons_append,
      ih fun d' hd' => h d' (List.mem_cons_of_mem d hd')]

theorem groups_stream {w : Nat} (hw : 0 < w) {ds : List Nat} (h : ∀ d ∈ ds, d < 2 ^ w) :
    groups w (stream w ds) = ds := by
  have hnil := groups_stream_append hw h []
  rwa [@groups_of_lt w [] hw, List.append_nil, List.append_nil] at hnil

/-- Digits out of groups are in range. -/
theorem groups_lt {w : Nat} {bs : List Bool} : ∀ d ∈ groups w bs, d < 2 ^ w := by
  intro d hd
  obtain ⟨i, -, rfl⟩ := List.mem_map.mp hd
  exact (value_lt _).trans_le (Nat.pow_le_pow_right Nat.two_pos (List.length_take_le ..))

/-- The stream of the groups is the bits in whole groups. -/
theorem stream_groups {w : Nat} (hw : 0 < w) (bs : List Bool) :
    stream w (groups w bs) = whole w bs := by
  induction bs using groups_induction hw with
  | short bs h => rw [groups_of_lt h, whole, Nat.div_eq_of_lt h, Nat.zero_mul]; rfl
  | group as bs ha ih =>
    have hdiv : (as ++ bs).length / w * w = as.length + bs.length / w * w := by
      rw [List.length_append, ha, Nat.add_div_left _ hw, Nat.succ_mul, Nat.add_comm]
    have hbits : ofNat w (value as) = as := by rw [← ha, ofNat_value]
    rw [groups_append hw ha, stream_cons, ih, hbits, whole, whole, hdiv,
      List.take_length_add_append]

/-! ## 3. Regrouping -/

theorem dvd_length_padded {w : Nat} (hw : 0 < w) (bs : List Bool) :
    w ∣ (padded w bs).length := by
  rw [padded, List.length_append, List.length_replicate]
  have hlt := Nat.mod_lt bs.length hw
  have hdecomp := Nat.div_add_mod bs.length w
  by_cases h : bs.length % w = 0
  · rw [h, Nat.sub_zero, Nat.mod_self, Nat.add_zero]
    exact Nat.dvd_of_mod_eq_zero h
  · rw [Nat.mod_eq_of_lt (show w - bs.length % w < w by omega)]
    exact ⟨bs.length / w + 1, by rw [Nat.mul_add, Nat.mul_one]; omega⟩

/-- A stream of whole groups is all of it. -/
theorem whole_of_dvd {w : Nat} {bs : List Bool} (h : w ∣ bs.length) : whole w bs = bs := by
  rw [whole, Nat.div_mul_cancel h, List.take_length]

/-- What padding adds to the whole groups of a stream is as long as what dangled, if that is
shorter than a group. -/
theorem padding_eq_iff {w m r : Nat} (hw : 0 < w) (h : w ∣ m + r) :
    r = (w - m % w) % w ↔ r < w := by
  refine ⟨fun hr => hr ▸ Nat.mod_lt _ hw, fun hr => ?_⟩
  have hx : w ∣ m % w + r := by
    have hm := Nat.div_add_mod m w
    rw [← hm, Nat.add_assoc] at h
    exact (Nat.dvd_add_right ⟨_, rfl⟩).mp h
  have hlt := Nat.mod_lt m hw
  obtain ⟨k, hk⟩ := hx
  match k with
  | 0 =>
    have h0 : m % w = 0 ∧ r = 0 := by omega
    rw [h0.1, h0.2, Nat.sub_zero, Nat.mod_self]
  | 1 =>
    have hsub : w - m % w = r := by omega
    rw [hsub, Nat.mod_eq_of_lt hr]
  | k + 2 =>
    have hle : w * 2 ≤ w * (k + 2) := Nat.mul_le_mul_left w (by omega)
    omega

/-- Digits of the smaller width come back from the larger one exactly if what dangles is what
padding adds: fewer bits than a digit has, all of them zero. -/
theorem regrouped_eq_iff {v w : Nat} (hw : 0 < w) (hv : w ≤ v) {ds : List Nat}
    (h : ∀ d ∈ ds, d < 2 ^ w) :
    groups w (padded w (stream v (groups v (stream w ds)))) = ds ↔
      (dangling v (stream w ds)).length < w ∧ ∀ b ∈ dangling v (stream w ds), b = false := by
  have hv0 : 0 < v := hw.trans_le hv
  have hbits : stream w ds = whole v (stream w ds) ++ dangling v (stream w ds) :=
    (whole_append_dangling ..).symm
  have hdvd : w ∣ (whole v (stream w ds)).length + (dangling v (stream w ds)).length := by
    rw [← List.length_append, ← hbits, length_stream]
    exact ⟨ds.length, rfl⟩
  rw [stream_groups hv0]
  constructor
  · intro heq
    have hstream : padded w (whole v (stream w ds)) = stream w ds := by
      rw [← whole_of_dvd (dvd_length_padded hw (whole v (stream w ds))), ← stream_groups hw, heq]
    rw [padded] at hstream
    have hdangling := List.append_cancel_left (hstream.trans hbits)
    obtain ⟨hlen, hzero⟩ := List.eq_replicate_iff.mp hdangling.symm
    exact ⟨(padding_eq_iff hw hdvd).mp hlen, hzero⟩
  · rintro ⟨hlen, hzero⟩
    have hdangling := List.eq_replicate_iff.mpr ⟨(padding_eq_iff hw hdvd).mpr hlen, hzero⟩
    rw [padded, ← hdangling, ← hbits, groups_stream hw h]

end BitGroups

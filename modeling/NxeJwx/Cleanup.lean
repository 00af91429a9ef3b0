/-
# Cleanup

What comes after a parse: `nxe_jwx_jwks_cleanup` releases the handle of each counted slot and
cleanses its secret, and finds nothing to do in a slot that it has been through
(`releaseEvents_cleanupSlot`).  So however often a keyset is freed, and whether its pool is
destroyed or not, there is one cleanup or none (`events_afterwards`).
-/
import NxeJwx.Erasure

namespace NxeJwx

open FillSlots Traced Ledger

variable {PKey : Type}

/-! ## 1. One slot -/

/-- What cleanup does to the handle of a slot. -/
def pkeyEvents (k : Slot PKey) : List Event :=
  match k.pkeyOf with
  | none => []
  | some i => [.ledger (.release (.pkey i))]

/-- What cleanup does to the secret of a slot. -/
def secretEvents (haveHmac : Bool) (k : Slot PKey) : List Event :=
  match k.secretOf with
  | none => []
  | some i =>
    if haveHmac && decide (k.key.hmacSecret.length > 0) then
      [.cleanse (.secret i) k.key.hmacSecret.length]
    else []

/-- What cleanup does to a slot. -/
def releaseEvents (haveHmac : Bool) (k : Slot PKey) : List Event :=
  pkeyEvents k ++ secretEvents haveHmac k

variable {haveHmac : Bool}

theorem events_freePkey (k : Slot PKey) : (freePkey k).events = pkeyEvents k := by
  unfold freePkey pkeyEvents
  cases k.pkeyOf <;> rfl

theorem events_cleanseSecret (k : Slot PKey) :
    (cleanseSecret haveHmac k).events = secretEvents haveHmac k := by
  unfold cleanseSecret secretEvents
  cases k.secretOf with
  | none => rfl
  | some i =>
    dsimp only
    split <;> rfl

/-- Freeing the handle leaves none, and the secret as it is. -/
theorem val_freePkey (k : Slot PKey) :
    (freePkey k).val.pkeyOf = none ∧ (freePkey k).val.secretOf = k.secretOf ∧
      (freePkey k).val.key.hmacSecret = k.key.hmacSecret := by
  unfold freePkey
  cases h : k.pkeyOf with
  | none => exact ⟨h, rfl, rfl⟩
  | some i => exact ⟨rfl, rfl, rfl⟩

/-- Cleansing the secret leaves none to cleanse, and the handle as it is. -/
theorem val_cleanseSecret (haveHmac : Bool) (k : Slot PKey) :
    (cleanseSecret haveHmac k).val.pkeyOf = k.pkeyOf ∧
      secretEvents haveHmac (cleanseSecret haveHmac k).val = [] := by
  unfold cleanseSecret
  cases hs : k.secretOf with
  | none => exact ⟨rfl, by simp [secretEvents, hs]⟩
  | some i =>
    dsimp only
    split
    · exact ⟨rfl, by simp [secretEvents]⟩
    next hno => exact ⟨rfl, by rw [val_pure, secretEvents, hs]; exact if_neg hno⟩

theorem events_cleanupSlot (k : Slot PKey) :
    (cleanupSlot haveHmac k).events = releaseEvents haveHmac k := by
  obtain ⟨-, hof, hsecret⟩ := val_freePkey k
  rw [cleanupSlot, events_bind, events_freePkey, events_cleanseSecret, releaseEvents]
  simp only [secretEvents, hof, hsecret]

/-- A slot that was cleaned up is clean. -/
theorem releaseEvents_cleanupSlot (k : Slot PKey) :
    releaseEvents haveHmac (cleanupSlot haveHmac k).val = [] := by
  obtain ⟨hpkey, hclean⟩ := val_cleanseSecret haveHmac (freePkey k).val
  rw [cleanupSlot, val_bind, releaseEvents, hclean, List.append_nil, pkeyEvents, hpkey,
    (val_freePkey k).1]

/-! ## 2. A keyset -/

theorem events_cleanupSlots (ks : List (Slot PKey)) :
    (cleanupSlots haveHmac ks).events = ks.flatMap (releaseEvents haveHmac) := by
  induction ks with
  | nil => rfl
  | cons k ks ih =>
    simp only [cleanupSlots, events_bind, events_pure, List.append_nil, List.flatMap_cons,
      events_cleanupSlot, ih]

theorem length_cleanupSlots (haveHmac : Bool) (ks : List (Slot PKey)) :
    (cleanupSlots haveHmac ks).val.length = ks.length := by
  induction ks with
  | nil => rfl
  | cons k ks ih => simpa [cleanupSlots] using ih

theorem cleanupSlots_clean (ks : List (Slot PKey)) :
    ∀ k ∈ (cleanupSlots haveHmac ks).val, releaseEvents haveHmac k = [] := by
  induction ks with
  | nil => simp [cleanupSlots]
  | cons k ks ih =>
    simp only [cleanupSlots, val_bind, val_pure, List.mem_cons, forall_eq_or_imp]
    exact ⟨releaseEvents_cleanupSlot k, ih⟩

theorem events_jwksCleanup (s : Slots (Slot PKey)) :
    (jwksCleanup haveHmac s).events = s.filled.flatMap (releaseEvents haveHmac) := by
  simp only [jwksCleanup, events_bind, events_pure, List.append_nil]
  exact events_cleanupSlots _

/-- The counted slots after cleanup are the counted slots, cleaned up. -/
theorem filled_jwksCleanup (s : Slots (Slot PKey)) :
    (jwksCleanup haveHmac s).val.filled = (cleanupSlots haveHmac s.filled).val := by
  have hlen := length_cleanupSlots haveHmac (s.cells.take s.count)
  simp only [jwksCleanup, val_bind, val_pure, Slots.filled]
  rw [List.length_take] at hlen
  by_cases h : s.count ≤ s.cells.length
  · rw [Nat.min_eq_left h] at hlen
    rw [List.take_append_of_le_length (by omega), List.take_of_length_le (by omega)]
  · rw [List.drop_eq_nil_of_le (by omega), List.append_nil, List.take_of_length_le (by omega)]

/-- There is nothing left for cleanup to do. -/
def Cleaned (haveHmac : Bool) (s : Slots (Slot PKey)) : Prop :=
  ∀ k ∈ s.filled, releaseEvents haveHmac k = []

theorem Cleaned.events {s : Slots (Slot PKey)} (h : Cleaned haveHmac s) :
    (jwksCleanup haveHmac s).events = [] := by
  rw [events_jwksCleanup, List.flatMap_eq_nil_iff]
  exact h

/-- Cleanup is idempotent. -/
theorem cleaned_jwksCleanup (haveHmac : Bool) (s : Slots (Slot PKey)) :
    Cleaned haveHmac (jwksCleanup haveHmac s).val := by
  rw [Cleaned, filled_jwksCleanup]
  exact cleanupSlots_clean _

/-- Freeing a keyset that is cleaned and disarmed again and again does nothing. -/
theorem jwksFreeTimes_cleaned (n : Nat) {r : Registered PKey} (h : Cleaned haveHmac r.keyset)
    (hr : r.armed = false) :
    (jwksFreeTimes haveHmac n r).events = [] ∧ (jwksFreeTimes haveHmac n r).val.armed = false := by
  induction n generalizing r with
  | zero => exact ⟨rfl, hr⟩
  | succ n ih =>
    obtain ⟨hevents, harmed⟩ := ih (cleaned_jwksCleanup haveHmac r.keyset)
      (rfl : (⟨_, false⟩ : Registered PKey).armed = false)
    refine ⟨?_, harmed⟩
    simp only [jwksFreeTimes, jwksFree, events_bind, events_pure, val_bind, val_pure, h.events,
      List.nil_append]
    exact hevents

/-- What comes after a parse is one cleanup of the counted slots, by the first call of
`nxe_jwx_jwks_free` or else by the handler; or nothing, when neither happens. -/
theorem events_afterwards (n : Nat) (destroyed : Bool) {p : Parsed PKey}
    {s : Slots (Slot PKey)} (hs : p.keyset = some s) :
    (afterwards haveHmac n destroyed p).events =
      if (p.returned = true ∧ 0 < n) ∨ destroyed = true then
        s.filled.flatMap (releaseEvents haveHmac)
      else [] := by
  simp only [afterwards, hs, events_bind, events_pure, List.append_nil]
  cases hn : (if p.returned then n else 0) with
  | zero =>
    -- no call of `nxe_jwx_jwks_free`: the handler is armed
    have hno : ¬ (p.returned = true ∧ 0 < n) := fun h => by
      rw [if_pos h.1] at hn
      omega
    cases destroyed with
    | false => simp [hno, jwksFreeTimes, poolEnd]
    | true =>
      simp only [jwksFreeTimes, events_pure, val_pure, poolEnd, if_true, destroyPool, events_bind,
        or_true, List.append_nil, List.nil_append]
      exact events_jwksCleanup s
  | succ m =>
    -- the first call cleans up and disarms the handler, and the rest finds nothing to do
    have hyes : p.returned = true ∧ 0 < n := by
      cases hret : p.returned <;> simp only [hret, Bool.false_eq_true, if_false, if_true] at hn
      · omega
      · exact ⟨rfl, by omega⟩
    obtain ⟨hevents, harmed⟩ := jwksFreeTimes_cleaned m
      (r := (⟨(jwksCleanup haveHmac s).val, false⟩ : Registered PKey))
      (cleaned_jwksCleanup haveHmac s) rfl
    rw [if_pos (.inl hyes)]
    simp only [jwksFreeTimes, jwksFree, events_bind, events_pure, val_bind, val_pure,
      List.append_nil, hevents, events_jwksCleanup]
    cases destroyed with
    | false => simp [poolEnd]
    | true => simp [poolEnd, destroyPool, harmed]

/-- Without a keyset there is nothing to release. -/
theorem events_afterwards_none (n : Nat) (destroyed : Bool) {p : Parsed PKey}
    (hs : p.keyset = none) : (afterwards haveHmac n destroyed p).events = [] := by
  simp only [afterwards, hs, events_pure]

end NxeJwx

/-
# The keyset of a JWKS document

The loop of `nxe_jwx_jwks_parse` over a whole document.  It reuses the slot of a skipped
entry, but `nxe_jwx_parse_one_key` zeroes the slot it is given, so the loop is regular in the
sense of `FillSlots` and the keyset is the list of what the entries give, in document order
(`jwksParse_some`); every key comes from one entry (`mem_of_jwksParse`), and every usable entry
has its key there (`usable_mem_of_jwksParse`).
-/
import NxeJwx.JwkEntry

namespace NxeJwx

open FillSlots

variable {PKey : Type}

/-- `entries` is the `keys` array of a document that `nxe_jwx_jwks_parse` looks into. -/
structure KeysArray (E : Env PKey) (doc : Bytes) (entries : List Json) : Prop where
  size : doc.length ≠ 0 ∧ doc.length ≤ maxJwksSize
  parse : ∃ root, E.json.parseUntrusted doc = some root ∧ root.isObject = true ∧
    root.objectGet (ascii "keys") = some (.array entries)
  count : entries.length ≤ maxJwksKeys

variable {E : Env PKey} {F : ParseFaults} {doc : Bytes} {entries : List Json} {pool : Pool}
  {J : Jwks PKey}

theorem KeysArray.unique {entries' : List Json} (h : KeysArray E doc entries)
    (h' : KeysArray E doc entries') : entries = entries' := by
  obtain ⟨root, hp, -, hk⟩ := h.parse
  obtain ⟨root', hp', -, hk'⟩ := h'.parse
  obtain rfl := Option.some.inj (hp.symm.trans hp')
  exact Json.array.inj (Option.some.inj (hk.symm.trans hk'))

/-! ## 1. The loop -/

/-- What an entry decides: its result in a zeroed slot. -/
def jwksOut (E : Env PKey) (F : ParseFaults) (entry : Json × Nat) : Outcome :=
  (jwksStep E F entry .zero).1

/-- What an entry leaves in a zeroed slot. -/
def jwksVal (E : Env PKey) (F : ParseFaults) (entry : Json × Nat) : Key PKey :=
  (jwksStep E F entry .zero).2

/-- The slot is zeroed before it is read, so it does not matter what is in it. -/
theorem jwksStep_slot (entry : Json × Nat) (slot slot' : Key PKey) :
    (jwksStep E F entry slot).1 = (jwksStep E F entry slot').1 ∧
      ((jwksStep E F entry slot).1 = .keep →
        (jwksStep E F entry slot).2 = (jwksStep E F entry slot').2) := by
  have hp : parseOneKey E (F.entry entry.2) slot entry.1 =
      parseOneKey E (F.entry entry.2) slot' entry.1 := rfl
  unfold jwksStep
  split
  · exact ⟨rfl, fun h => Outcome.noConfusion h⟩
  · rw [hp]
    exact ⟨rfl, fun _ => rfl⟩

theorem jwksStep_regular (E : Env PKey) (F : ParseFaults) :
    Regular (fun _ => True) (jwksStep E F) (jwksOut E F) (jwksVal E F) where
  outcome i k _ := (jwksStep_slot i k .zero).1
  kept i k _ h := (jwksStep_slot i k .zero).2 ((jwksStep_slot i k .zero).1.trans h)
  skipped _ _ _ _ := trivial

/-- A value that is an object, as reading a member of it shows. -/
theorem isObject_of_stringAt {json : Json} {name s : Bytes} (h : json.stringAt name = some s) :
    json.isObject = true := by
  cases json <;> simp [Json.stringAt, Json.objectGet, Json.isObject] at h ⊢

/-- An entry is kept exactly when its parse returns `NGX_OK`, with the key of the parse. -/
theorem jwksOut_keep_iff {entry : Json × Nat} {k : Key PKey} :
    jwksOut E F entry = .keep ∧ jwksVal E F entry = k ↔
      parseOneKey E (F.entry entry.2) .zero entry.1 = (.ok, k) := by
  unfold jwksOut jwksVal jwksStep
  constructor
  · rintro ⟨ho, hv⟩
    split at ho
    · exact Outcome.noConfusion ho
    next hobj =>
    rw [if_neg hobj] at hv
    cases hp : parseOneKey E (F.entry entry.2) .zero entry.1 with
    | mk rc k' =>
      rw [hp] at ho hv
      cases rc with
      | ok => rw [← hv]
      | error => exact Outcome.noConfusion ho
      | declined => exact Outcome.noConfusion ho
  · intro hp
    obtain ⟨m, hm, -⟩ := parseOneKey_ok hp
    simp [isObject_of_stringAt hm.describes.kty_eq, hp]

/-- An entry whose parse returns `NGX_ERROR` and that is an object aborts the document. -/
theorem jwksOut_abort {entry : Json × Nat} (hobj : entry.1.isObject = true)
    (h : (parseOneKey E (F.entry entry.2) .zero entry.1).1 = .error) :
    jwksOut E F entry = .abort := by
  unfold jwksOut jwksStep
  cases hp : parseOneKey E (F.entry entry.2) .zero entry.1 with
  | mk rc k' =>
    rw [hp] at h
    obtain rfl : rc = .error := h
    simp [hobj]

/-! ## 2. The document -/

/-- An element of a list has a position. -/
theorem exists_mem_zipIdx {α : Type} {l : List α} {a : α} (h : a ∈ l) :
    ∃ i, (a, i) ∈ l.zipIdx := by
  obtain ⟨i, hi⟩ := List.mem_iff_getElem?.mp h
  exact ⟨i, List.mk_mem_zipIdx_iff_getElem?.mpr hi⟩

theorem mem_of_mem_zipIdx {α : Type} {l : List α} {a : α} {i : Nat} (h : (a, i) ∈ l.zipIdx) :
    a ∈ l :=
  List.mem_of_getElem? (List.mk_mem_zipIdx_iff_getElem?.mp h)

/-- The keyset held by an array of slots. -/
theorem walk_of_slots (s : Slots (Key PKey)) : (Jwks.mk s.cells s.count).walk = s.filled :=
  Jwks.walk_eq_take _

/-- What both parsers make of a run of their loop: the keyset of the slots, unless it aborted or
no slot is used. -/
def keysetOfRun : Run (Key PKey) → Option (Jwks PKey)
  | .done s => if s.count = 0 then none else some ⟨s.cells, s.count⟩
  | _ => none

section Run

variable {ι : Type} {clean : Key PKey → Prop}
  {step : ι → Key PKey → Outcome × Key PKey} {out : ι → Outcome} {val : ι → Key PKey}
  {is : List ι} {n : Nat}

/-- A keyset that comes out of a run of a regular loop is what the inputs give, in order; none of
them aborted, and there is at least one key. -/
theorem keysetOfRun_some (full : Nat → Bool) (hr : Regular clean step out val) (hb : clean .zero)
    (hn : is.length ≤ n) (hf : ∀ m < n, full m = false)
    (h : keysetOfRun (fill full step is (.blank n .zero)) = some J) :
    J.walk = keptOf out val is ∧ J.walk ≠ [] ∧ ∀ i ∈ is, out i ≠ .abort := by
  rcases fill_blank full hr hb hn hf with ⟨-, s, hs⟩ | ⟨hab, s, hs, hfilled, -, hlen⟩
  · rw [hs] at h
    exact absurd h (by simp [keysetOfRun])
  · rw [hs, keysetOfRun] at h
    split at h
    · exact absurd h (by simp)
    next hcount =>
    obtain rfl := Option.some.inj h
    have hwalk := (walk_of_slots s).trans hfilled
    refine ⟨hwalk, fun hnil => hcount ?_, hab⟩
    rw [hlen, ← hwalk, hnil]
    rfl

/-- Conversely, inputs none of which aborts and some of which are kept give a keyset. -/
theorem keysetOfRun_of_kept (full : Nat → Bool) (hr : Regular clean step out val) (hb : clean .zero)
    (hn : is.length ≤ n) (hf : ∀ m < n, full m = false) (hab : ∀ i ∈ is, out i ≠ .abort)
    (hkept : keptOf out val is ≠ []) :
    ∃ J, keysetOfRun (fill full step is (.blank n .zero)) = some J ∧
      J.walk = keptOf out val is := by
  rcases fill_blank full hr hb hn hf with ⟨⟨i, hi, ha⟩, -⟩ | ⟨-, s, hs, hfilled, -, hlen⟩
  · exact absurd ha (hab i hi)
  · have hcount : s.count ≠ 0 := by
      rw [hlen]
      exact fun h0 => hkept (List.length_eq_zero_iff.mp h0)
    exact ⟨⟨s.cells, s.count⟩, by rw [hs, keysetOfRun, if_neg hcount],
      (walk_of_slots s).trans hfilled⟩

/-- The keyset of a run, as the keys that the inputs give one by one. -/
theorem keysetOfRun_gather (full : Nat → Bool) (hr : Regular clean step out val)
    (hb : clean .zero) (hn : is.length ≤ n) (hf : ∀ m < n, full m = false) :
    (keysetOfRun (fill full step is (.blank n .zero))).map Jwks.walk =
      gather (is.map fun i => (out i, val i)) := by
  cases h : keysetOfRun (fill full step is (.blank n .zero)) with
  | none =>
    rw [Option.map_none, eq_comm, gather_eq_none_iff]
    by_contra hcon
    rw [not_or, not_exists] at hcon
    have hab : ∀ i ∈ is, out i ≠ .abort := fun i hi ha =>
      hcon.1 (out i, val i) ⟨List.mem_map_of_mem hi, ha⟩
    have hkept : keptOf out val is ≠ [] := by
      intro hnil
      refine hcon.2 ?_
      intro r hrm hk
      obtain ⟨i, hi, rfl⟩ := List.mem_map.mp hrm
      have hmem : val i ∈ keptOf out val is := mem_keptOf.mpr ⟨i, hi, hk, rfl⟩
      rw [hnil] at hmem
      exact absurd hmem List.not_mem_nil
    obtain ⟨J, hJ, -⟩ := keysetOfRun_of_kept full hr hb hn hf hab hkept
    rw [h] at hJ
    exact absurd hJ (by simp)
  | some J =>
    obtain ⟨hwalk, hne, hab⟩ := keysetOfRun_some full hr hb hn hf h
    rw [Option.map_some, eq_comm, gather_eq_some_iff]
    refine ⟨?_, hne, by rw [hwalk, keptOf_eq_filter]⟩
    intro r hrm
    obtain ⟨i, hi, rfl⟩ := List.mem_map.mp hrm
    exact hab i hi

/-- Whatever the loop does, a keyset that comes out of a run has a key, and no more keys than
slots. -/
theorem keysetOfRun_count {full : Nat → Bool} (hn : is.length ≤ n)
    (h : keysetOfRun (fill full step is (.blank n .zero)) = some J) :
    1 ≤ J.nkeys ∧ J.nkeys ≤ n ∧ J.keys.length = n := by
  have hroom : Room (is, Slots.blank n (Key.zero : Key PKey)) := room_blank hn
  obtain ⟨rest, s, hreach, hend⟩ := fill_end full step is _ hroom
  rcases hend with hdone | ⟨k, hab⟩
  · rw [hdone, keysetOfRun] at h
    split at h
    · exact absurd h (by simp)
    next hcount =>
    obtain rfl := Option.some.inj h
    obtain ⟨hr, hlen⟩ := reaches_room hreach hroom
    simp only [Room, Slots.blank, List.length_replicate] at hr hlen
    refine ⟨Nat.pos_of_ne_zero hcount, ?_, hlen⟩
    dsimp only
    omega
  · rw [hab] at h
    exact absurd h (by simp [keysetOfRun])

end Run

/-- A keyset whose counter stays within its slots has as many keys as it counts. -/
theorem length_walk (h : J.nkeys ≤ J.keys.length) : J.walk.length = J.nkeys := by
  rw [Jwks.walk_eq_take, List.length_take, Nat.min_eq_left h]

/-- The number of slots that `nxe_jwx_jwks_parse` allocates. -/
def jwksCapacity (entries : List Json) : Nat :=
  if entries.length ≠ 0 then entries.length else 1

/-- The capacity of the keyset is enough for the entries. -/
theorem zipIdx_le_capacity (entries : List Json) :
    entries.zipIdx.length ≤ jwksCapacity entries := by
  rw [List.length_zipIdx, jwksCapacity]
  split <;> omega

/-- On an admissible document, parser and allocator not failing, parsing is a run of the loop. -/
theorem jwksParse_eq_run (hroot : F.root = false) (halloc : F.alloc = false)
    (hd : KeysArray E doc entries) :
    jwksParse E F (some doc) (some pool) = keysetOfRun (fill (fun _ => false) (jwksStep E F)
      entries.zipIdx (.blank (jwksCapacity entries) .zero)) := by
  obtain ⟨root, hp, hobj, hkeys⟩ := hd.parse
  have hsize : ¬ (doc.length = 0 ∨ doc.length > maxJwksSize) := by
    have := hd.size
    omega
  simp only [jwksParse, if_neg hsize, hroot, Bool.false_eq_true, if_false, hp, hobj,
    Bool.not_true, hkeys, if_neg (Nat.not_lt.mpr hd.count), jwksAlloc, halloc]
  rfl

/-- So it gives the keys of the entries that are kept. -/
theorem jwksParse_gather (hroot : F.root = false) (halloc : F.alloc = false)
    (hd : KeysArray E doc entries) :
    (jwksParse E F (some doc) (some pool)).map Jwks.walk =
      gather (entries.zipIdx.map fun i => (jwksOut E F i, jwksVal E F i)) := by
  rw [jwksParse_eq_run hroot halloc hd]
  exact keysetOfRun_gather _ (jwksStep_regular E F) trivial (zipIdx_le_capacity entries)
    fun _ _ => rfl

/-- A keyset that comes out of a document is that of a run of the loop over its entries. -/
theorem jwksParse_run (h : jwksParse E F (some doc) (some pool) = some J) :
    ∃ entries, KeysArray E doc entries ∧ F.root = false ∧ F.alloc = false ∧
      keysetOfRun (fill (fun _ => false) (jwksStep E F) entries.zipIdx
        (.blank (jwksCapacity entries) .zero)) = some J := by
  simp only [jwksParse] at h
  split at h
  · exact absurd h (by simp)
  next hsize =>
  split at h
  · exact absurd h (by simp)
  next root hroot =>
  split at h
  · exact absurd h (by simp)
  next hobj =>
  split at h
  case h_2 => exact absurd h (by simp)
  next keys hkeys =>
  split at h
  · exact absurd h (by simp)
  next hcount =>
  split at h
  · exact absurd h (by simp)
  next slots halloc =>
  obtain ⟨hfroot, hparse⟩ := Option.ite_none_left_eq_some.mp hroot
  obtain ⟨hfalloc, hslots⟩ := Option.ite_none_left_eq_some.mp halloc
  obtain rfl := Option.some.inj hslots
  exact ⟨keys, ⟨by omega, ⟨root, hparse, by simpa using hobj, hkeys⟩, Nat.le_of_not_lt hcount⟩,
    Bool.eq_false_iff.mpr hfroot, Bool.eq_false_iff.mpr hfalloc, h⟩

/-- A keyset that comes out of a document is what its entries give, in order; none of them
aborted, and there is at least one key. -/
theorem jwksParse_some (h : jwksParse E F (some doc) (some pool) = some J) :
    ∃ entries, KeysArray E doc entries ∧
      J.walk = keptOf (jwksOut E F) (jwksVal E F) entries.zipIdx ∧ J.walk ≠ [] ∧
      (∀ i ∈ entries.zipIdx, jwksOut E F i ≠ .abort) := by
  obtain ⟨entries, hd, -, -, hrun⟩ := jwksParse_run h
  exact ⟨entries, hd, keysetOfRun_some _ (jwksStep_regular E F) trivial
    (zipIdx_le_capacity entries) (fun _ _ => rfl) hrun⟩

/-- `k` is the key of the entry `e`, which describes `m`. -/
structure JwkOrigin (E : Env PKey) (e : Json) (m : Material) (k : Key PKey) : Prop where
  usable : Usable E e m
  key : k = { jwkKey E.ossl e m with thumbprint := k.thumbprint }
  thumbprint : Thumbprinted E k

namespace JwkOrigin

variable {e : Json} {m : Material} {k : Key PKey}

theorem kty (h : JwkOrigin E e m k) : k.kty = m.kty := by rw [h.key]; rfl

theorem kid (h : JwkOrigin E e m k) : k.kid = (e.stringAt (ascii "kid")).getD [] := by
  rw [h.key]; rfl

theorem alg (h : JwkOrigin E e m k) : k.alg = (e.stringAt (ascii "alg")).getD [] := by
  rw [h.key]; rfl

theorem crv (h : JwkOrigin E e m k) : k.crv = (e.stringAt (ascii "crv")).getD [] := by
  rw [h.key]; rfl

theorem pkey (h : JwkOrigin E e m k) : k.pkey = m.pkey E.ossl := by rw [h.key]; rfl

theorem hmacSecret (h : JwkOrigin E e m k) : k.hmacSecret = m.secret := by rw [h.key]; rfl

end JwkOrigin

theorem jwkOrigin_of_parseOneKey {f : EntryFaults} {slot k : Key PKey} {e : Json}
    (h : parseOneKey E f slot e = (.ok, k)) : ∃ m, JwkOrigin E e m k := by
  obtain ⟨m, hm, rfl⟩ := parseOneKey_ok h
  obtain ⟨tp, heq, htp⟩ := jwkThumbprint_eq E (fun s => f (.thumbprint s)) (jwkKey E.ossl e m)
  rw [heq]
  exact ⟨m, hm, rfl, htp⟩

/-- Every key of the keyset is the key of one entry. -/
theorem mem_of_jwksParse (h : jwksParse E F (some doc) (some pool) = some J) {k : Key PKey}
    (hk : k ∈ J.walk) :
    ∃ entries e m, KeysArray E doc entries ∧ e ∈ entries ∧ JwkOrigin E e m k := by
  obtain ⟨entries, hd, hwalk, -, -⟩ := jwksParse_some h
  rw [hwalk] at hk
  obtain ⟨⟨e, i⟩, hi, hkeep⟩ := mem_keptOf.mp hk
  obtain ⟨m, hm⟩ := jwkOrigin_of_parseOneKey (jwksOut_keep_iff.mp hkeep)
  exact ⟨entries, e, m, hd, mem_of_mem_zipIdx hi, hm⟩

/-- When no step fails, the thumbprint of a key is the computed one. -/
theorem key_of_jwksParse (h : jwksParse E noParseFaults (some doc) (some pool) = some J)
    {k : Key PKey} (hk : k ∈ J.walk) {e : Json} {m : Material} (ho : JwkOrigin E e m k) :
    k = (jwkThumbprint E noThumbprintFaults (jwkKey E.ossl e m)).2 := by
  obtain ⟨entries, -, hwalk, -, -⟩ := jwksParse_some h
  rw [hwalk] at hk
  obtain ⟨⟨e', i⟩, -, hkeep⟩ := mem_keptOf.mp hk
  obtain ⟨m', -, hkey⟩ := parseOneKey_ok (jwksOut_keep_iff.mp hkeep)
  obtain ⟨tp, heq, -⟩ := jwkThumbprint_eq E noThumbprintFaults (jwkKey E.ossl e' m')
  -- the entry that the loop made the key from has the same key before its thumbprint
  have hblank : jwkKey E.ossl e' m' = { k with thumbprint := [] } := by
    rw [hkey.trans heq]
    rfl
  have hblank' : jwkKey E.ossl e m = { k with thumbprint := [] } := by
    rw [ho.key]
    rfl
  rw [hblank'.trans hblank.symm]
  exact hkey

/-- Every usable entry has its key in the keyset. -/
theorem usable_mem_of_jwksParse (h : jwksParse E F (some doc) (some pool) = some J)
    (hd : KeysArray E doc entries) {e : Json} (he : e ∈ entries) {m : Material}
    (hm : Usable E e m) : ∃ k ∈ J.walk, JwkOrigin E e m k := by
  obtain ⟨entries', hd', hwalk, -, hab⟩ := jwksParse_some h
  obtain rfl := hd.unique hd'
  obtain ⟨i, hi⟩ := exists_mem_zipIdx he
  rcases parseOneKey_of_usable hm Key.zero (f := F.entry i) with ⟨-, herr⟩ | hok
  · exact absurd (jwksOut_abort (isObject_of_stringAt hm.describes.kty_eq) herr) (hab (e, i) hi)
  · obtain ⟨tp, heq, htp⟩ :=
      jwkThumbprint_eq E (fun s => F.entry i (.thumbprint s)) (jwkKey E.ossl e m)
    rw [heq] at hok
    refine ⟨_, ?_, hm, rfl, htp⟩
    rw [hwalk]
    exact mem_keptOf.mpr ⟨(e, i), hi, jwksOut_keep_iff.mpr hok⟩

end NxeJwx

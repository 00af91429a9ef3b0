/-
# The keyset as the list of usable entries

When no allocation fails, a parse is described by what each entry gives ALONE, in a zeroed slot:
the keyset is the list of these keys, in document order, and it is missing when an entry ends in
`NGX_ERROR` or none gives a key (`FillSlots.gather`).  Nothing else of the document matters; in
particular an entry that is skipped can be put in or left out.

Both loops write into a slot before they know whether they will keep it, so this is about the
reuse of slots, and it holds for two different reasons: `nxe_jwx_parse_one_key` zeroes its slot
(`jwksStep_regular`), and a member that the keyval loop skips leaves its slot as it was
(`keyvalStep_regular`).
-/
import NxeJwx.Soundness

namespace NxeJwx

open FillSlots

variable {PKey : Type} {E : Env PKey} {doc : Bytes} {pool : Pool} {J : Jwks PKey}

/-! ## 1. JWKS -/

/-- What an entry gives alone. -/
def parsedAlone (E : Env PKey) (entry : Json) : Rc × Key PKey :=
  parseOneKey E noEntryFaults .zero entry

/-- What the loop makes of an entry alone. -/
def jwksAlone (E : Env PKey) (entry : Json) : Outcome × Key PKey :=
  jwksStep E noParseFaults (entry, 0) .zero

/-- What is not an object has no `kty`. -/
theorem parsedAlone_not_object {entry : Json} (h : entry.isObject = false) :
    parsedAlone E entry = (.declined, .zero) := by
  cases entry with
  | object => exact absurd h (by simp [Json.isObject])
  | null | boolean | integer | real | string | array => rfl

/-- The loop keeps, aborts or skips as the entry alone would have it. -/
theorem jwksAlone_eq (entry : Json) : jwksAlone E entry = match parsedAlone E entry with
    | (.ok, k) => (.keep, k)
    | (.error, k) => (.abort, k)
    | (.declined, k) => (.skip, k) := by
  unfold jwksAlone jwksStep
  cases hobj : entry.isObject with
  | false => simp [parsedAlone_not_object hobj]
  | true => rfl

theorem jwksAlone_keep_iff {entry : Json} :
    (jwksAlone E entry).1 = .keep ↔ (parsedAlone E entry).1 = .ok := by
  rw [jwksAlone_eq]
  rcases parsedAlone E entry with ⟨rc, k⟩
  cases rc <;> simp

theorem jwksAlone_abort_iff {entry : Json} :
    (jwksAlone E entry).1 = .abort ↔ (parsedAlone E entry).1 = .error := by
  rw [jwksAlone_eq]
  rcases parsedAlone E entry with ⟨rc, k⟩
  cases rc <;> simp

theorem jwksAlone_key (entry : Json) : (jwksAlone E entry).2 = (parsedAlone E entry).2 := by
  rw [jwksAlone_eq]
  rcases parsedAlone E entry with ⟨rc, k⟩
  cases rc <;> rfl

/-- The entries that give a key. -/
def usableEntries (E : Env PKey) (entries : List Json) : List Json :=
  entries.filter fun e => (parsedAlone E e).1 = .ok

/-- A JWKS document gives what its entries give alone. -/
theorem jwksParse_alone {entries : List Json} (hd : KeysArray E doc entries) :
    (jwksParse E noParseFaults (some doc) (some pool)).map Jwks.walk =
      gather (entries.map (jwksAlone E)) := by
  rw [jwksParse_gather rfl rfl hd]
  -- the position of an entry selects its faults, and there are none
  have hmap : (entries.zipIdx.map fun i =>
      (jwksOut E noParseFaults i, jwksVal E noParseFaults i)) =
        (entries.zipIdx.map Prod.fst).map (jwksAlone E) := by
    rw [List.map_map]
    rfl
  rw [hmap, List.zipIdx_map_fst]

/-- A keyset counts the keys that its loops visit. -/
theorem nkeys_of_jwksParse {F : ParseFaults}
    (h : jwksParse E F (some doc) (some pool) = some J) : J.nkeys = J.walk.length := by
  obtain ⟨entries, -, -, -, hrun⟩ := jwksParse_run h
  obtain ⟨-, hle, hlen⟩ := keysetOfRun_count (zipIdx_le_capacity entries) hrun
  exact (length_walk (by omega)).symm

theorem jwksParse_eq_none_iff {entries : List Json} (hd : KeysArray E doc entries) :
    jwksParse E noParseFaults (some doc) (some pool) = none ↔
      (∃ e ∈ entries, (parsedAlone E e).1 = .error) ∨
        ∀ e ∈ entries, (parsedAlone E e).1 ≠ .ok := by
  rw [← Option.map_eq_none_iff, jwksParse_alone hd, gather_eq_none_iff]
  simp only [List.mem_map, exists_exists_and_eq_and, forall_exists_index, and_imp,
    forall_apply_eq_imp_iff₂, jwksAlone_abort_iff, ne_eq, jwksAlone_keep_iff]

theorem walk_of_jwksParse {entries : List Json} (hd : KeysArray E doc entries)
    (h : jwksParse E noParseFaults (some doc) (some pool) = some J) :
    J.walk = (usableEntries E entries).map fun e => (parsedAlone E e).2 := by
  have hg : (jwksParse E noParseFaults (some doc) (some pool)).map Jwks.walk = _ :=
    jwksParse_alone hd
  rw [h, Option.map_some, eq_comm, gather_eq_some_iff] at hg
  rw [hg.2.2, List.filter_map, List.map_map, usableEntries]
  have hfilter : entries.filter ((fun r => r.1 == .keep) ∘ jwksAlone E) =
      entries.filter fun e => (parsedAlone E e).1 = .ok :=
    List.filter_congr fun e _ => by
      rw [Function.comp_apply, Bool.eq_iff_iff, beq_iff_eq, decide_eq_true_eq, jwksAlone_keep_iff]
  rw [hfilter]
  exact List.map_congr_left fun e _ => jwksAlone_key e

/-- Documents whose entries differ in skipped ones only give the same keys. -/
theorem jwksParse_skip {doc' : Bytes} {entries entries' : List Json} {pool' : Pool}
    (hd : KeysArray E doc entries) (hd' : KeysArray E doc' entries')
    (h : entries.filter (fun e => (parsedAlone E e).1 ≠ .declined) =
      entries'.filter fun e => (parsedAlone E e).1 ≠ .declined) :
    (jwksParse E noParseFaults (some doc) (some pool)).map Jwks.walk =
      (jwksParse E noParseFaults (some doc') (some pool')).map Jwks.walk := by
  have hfilter : ∀ l : List Json, (l.map (jwksAlone E)).filter (fun r => r.1 != .skip) =
      (l.filter fun e => (parsedAlone E e).1 ≠ .declined).map (jwksAlone E) := by
    intro l
    rw [List.filter_map]
    refine congrArg _ (List.filter_congr ?_)
    intro e _
    rw [Function.comp_apply, jwksAlone_eq]
    rcases parsedAlone E e with ⟨rc, k⟩
    cases rc <;> rfl
  rw [jwksParse_alone hd, jwksParse_alone hd']
  exact gather_skip (by rw [hfilter, hfilter, h])

/-- A document whose keys array is known gives a keyset only if it is admissible. -/
theorem keysArray_of_jwksParse {F : ParseFaults} {root : Json} {entries : List Json}
    (hp : E.json.parseUntrusted doc = some root)
    (hk : root.objectGet (ascii "keys") = some (.array entries))
    (h : jwksParse E F (some doc) (some pool) = some J) : KeysArray E doc entries := by
  obtain ⟨entries', hd, -⟩ := jwksParse_run h
  obtain ⟨root', hp', -, hk'⟩ := hd.parse
  obtain rfl := Option.some.inj (hp.symm.trans hp')
  obtain rfl := Json.array.inj (Option.some.inj (hk.symm.trans hk'))
  exact hd

/-- A document with too many entries, skipped ones counted, gives nothing. -/
theorem jwksParse_too_many {F : ParseFaults} {root : Json} {entries : List Json}
    (hp : E.json.parseUntrusted doc = some root)
    (hk : root.objectGet (ascii "keys") = some (.array entries))
    (h : maxJwksKeys < entries.length) : jwksParse E F (some doc) (some pool) = none := by
  cases hJ : jwksParse E F (some doc) (some pool) with
  | none => rfl
  | some J => exact absurd (keysArray_of_jwksParse hp hk hJ).count (Nat.not_le.mpr h)

/-! ## 2. Keyval -/

/-- What the loop makes of a member alone. -/
def keyvalAlone (E : Env PKey) (member : Bytes × Json) : Outcome × Key PKey :=
  keyvalStep E noParseFaults (member, 0) .zero

/-- The members that give a key. -/
def supportedMembers (E : Env PKey) (members : List (Bytes × Json)) : List (Bytes × Json) :=
  members.filter fun m => (keyvalAlone E m).1 = .keep

/-- They are the PEMs of supported public keys under a non-empty name. -/
theorem keyvalAlone_keep_iff {member : Bytes × Json} :
    (keyvalAlone E member).1 = .keep ↔ ∃ pkey, PemMember E member pkey := by
  constructor
  · intro h
    have hkeep : keyvalOut E noParseFaults (member, 0) = .keep := h
    obtain ⟨pkey, hp, -⟩ := keyvalOut_keep hkeep
    exact ⟨pkey, hp⟩
  · rintro ⟨pkey, hp⟩
    exact (keyvalOut_of_pemMember hp 0).1

/-- Nothing aborts the document. -/
theorem keyvalAlone_ne_abort (member : Bytes × Json) : (keyvalAlone E member).1 ≠ .abort :=
  fun h => absurd (keyvalOut_abort (show keyvalOut E noParseFaults (member, 0) = .abort from h))
    (by simp [noParseFaults, noEntryFaults])

/-- A keyval document gives what its members give alone. -/
theorem keyvalParse_alone {members : List (Bytes × Json)} (hd : KeyvalMembers E doc members)
    (hne : members ≠ []) :
    (keyvalParse E noParseFaults (some doc) (some pool)).map Jwks.walk =
      gather (members.map (keyvalAlone E)) := by
  rw [keyvalParse_gather rfl rfl hd hne]
  have hmap : (members.zipIdx.map fun i =>
      (keyvalOut E noParseFaults i, keyvalVal E noParseFaults i)) =
        (members.zipIdx.map Prod.fst).map (keyvalAlone E) := by
    rw [List.map_map]
    rfl
  rw [hmap, List.zipIdx_map_fst]

theorem nkeys_of_keyvalParse {F : ParseFaults}
    (h : keyvalParse E F (some doc) (some pool) = some J) : J.nkeys = J.walk.length := by
  obtain ⟨members, -, -, -, -, hrun⟩ := keyvalParse_run h
  obtain ⟨-, hle, hlen⟩ := keysetOfRun_count (zipIdx_le_length members) hrun
  exact (length_walk (by omega)).symm

theorem keyvalParse_eq_none_iff {members : List (Bytes × Json)} (hd : KeyvalMembers E doc members)
    (hne : members ≠ []) :
    keyvalParse E noParseFaults (some doc) (some pool) = none ↔
      ∀ m ∈ members, ∀ pkey, ¬ PemMember E m pkey := by
  rw [← Option.map_eq_none_iff, keyvalParse_alone hd hne, gather_eq_none_iff]
  simp only [List.mem_map, exists_exists_and_eq_and, forall_exists_index, and_imp,
    forall_apply_eq_imp_iff₂, ne_eq, keyvalAlone_keep_iff, keyvalAlone_ne_abort, and_false,
    exists_false, false_or, not_exists]

theorem walk_of_keyvalParse {members : List (Bytes × Json)} (hd : KeyvalMembers E doc members)
    (h : keyvalParse E noParseFaults (some doc) (some pool) = some J) :
    J.walk = (supportedMembers E members).map fun m => (keyvalAlone E m).2 := by
  obtain ⟨members', hd', hne, -⟩ := keyvalParse_run h
  obtain rfl := hd.unique hd'
  have hg : (keyvalParse E noParseFaults (some doc) (some pool)).map Jwks.walk = _ :=
    keyvalParse_alone hd hne
  rw [h, Option.map_some, eq_comm, gather_eq_some_iff] at hg
  rw [hg.2.2, List.filter_map, List.map_map, supportedMembers]
  have hfilter : members.filter ((fun r => r.1 == .keep) ∘ keyvalAlone E) =
      members.filter fun m => (keyvalAlone E m).1 = .keep :=
    List.filter_congr fun m _ => by
      rw [Function.comp_apply, Bool.eq_iff_iff, beq_iff_eq, decide_eq_true_eq]
  rw [hfilter]
  rfl

/-- Documents whose members differ in skipped ones only give the same keys. -/
theorem keyvalParse_skip {doc' : Bytes} {members members' : List (Bytes × Json)} {pool' : Pool}
    (hd : KeyvalMembers E doc members) (hne : members ≠ []) (hd' : KeyvalMembers E doc' members')
    (hne' : members' ≠ []) (h : supportedMembers E members = supportedMembers E members') :
    (keyvalParse E noParseFaults (some doc) (some pool)).map Jwks.walk =
      (keyvalParse E noParseFaults (some doc') (some pool')).map Jwks.walk := by
  have hfilter : ∀ l : List (Bytes × Json),
      (l.map (keyvalAlone E)).filter (fun r => r.1 != .skip) =
        (supportedMembers E l).map (keyvalAlone E) := by
    intro l
    rw [List.filter_map, supportedMembers]
    refine congrArg _ (List.filter_congr ?_)
    intro m _
    have hab := keyvalAlone_ne_abort (E := E) m
    rw [Function.comp_apply]
    cases hm : (keyvalAlone E m).1 with
    | keep | skip => rfl
    | abort => exact absurd hm hab
  rw [keyvalParse_alone hd hne, keyvalParse_alone hd' hne']
  exact gather_skip (by rw [hfilter, hfilter, h])

/-! ## 3. The keyset is the in-order list -/

/-- Key number `j` is what the `j`-th input of a list gives. -/
theorem keyAt_of_walk {α : Type} {l : List α} {key : α → Key PKey} (h : J.walk = l.map key)
    (j : Nat) : J.keyAt j = l[j]?.map key := by
  rw [Jwks.keyAt_eq_walk, h, List.getElem?_map]

/-- **The keyset is the in-order list of usable entries.**  For both parsers, no allocation
failing: when there is a keyset, what its keys are, and that skipped entries do not count. -/
theorem parsed_in_order (E : Env PKey) (doc : Bytes) (pool : Pool) :
    (∀ root entries, E.json.parseUntrusted doc = some root →
      root.objectGet (ascii "keys") = some (.array entries) → 64 < entries.length →
      jwksParse E noParseFaults (some doc) (some pool) = none) ∧
    (∀ entries, KeysArray E doc entries →
      (jwksParse E noParseFaults (some doc) (some pool) = none ↔
        (∃ e ∈ entries, (parsedAlone E e).1 = .error) ∨
          ∀ e ∈ entries, (parsedAlone E e).1 ≠ .ok) ∧
      (∀ J, jwksParse E noParseFaults (some doc) (some pool) = some J →
        J.nkeys = (usableEntries E entries).length ∧
        ∀ j, J.keyAt j = (usableEntries E entries)[j]?.map fun e => (parsedAlone E e).2) ∧
      (∀ doc' entries', KeysArray E doc' entries' →
        entries.filter (fun e => (parsedAlone E e).1 ≠ .declined) =
          entries'.filter (fun e => (parsedAlone E e).1 ≠ .declined) →
        (jwksParse E noParseFaults (some doc) (some pool)).map Jwks.walk =
          (jwksParse E noParseFaults (some doc') (some pool)).map Jwks.walk)) ∧
    (∀ members, KeyvalMembers E doc members → members ≠ [] →
      (keyvalParse E noParseFaults (some doc) (some pool) = none ↔
        ∀ m ∈ members, ∀ pkey, ¬ PemMember E m pkey) ∧
      (∀ J, keyvalParse E noParseFaults (some doc) (some pool) = some J →
        J.nkeys = (supportedMembers E members).length ∧
        (∀ j, J.keyAt j = (supportedMembers E members)[j]?.map fun m => (keyvalAlone E m).2) ∧
        ∀ m ∈ members, m ∈ supportedMembers E members ↔ ∃ pkey, PemMember E m pkey) ∧
      (∀ doc' members', KeyvalMembers E doc' members' → members' ≠ [] →
        supportedMembers E members = supportedMembers E members' →
        (keyvalParse E noParseFaults (some doc) (some pool)).map Jwks.walk =
          (keyvalParse E noParseFaults (some doc') (some pool)).map Jwks.walk)) := by
  refine ⟨?_, ?_, ?_⟩
  · intro root entries hp hk hlarge
    exact jwksParse_too_many hp hk hlarge
  · intro entries hd
    refine ⟨jwksParse_eq_none_iff hd, ?_, ?_⟩
    · intro J hJ
      have hwalk := walk_of_jwksParse hd hJ
      exact ⟨by rw [nkeys_of_jwksParse hJ, hwalk, List.length_map], keyAt_of_walk hwalk⟩
    · intro doc' entries' hd' hsame
      exact jwksParse_skip hd hd' hsame
  · intro members hd hne
    refine ⟨keyvalParse_eq_none_iff hd hne, ?_, ?_⟩
    · intro J hJ
      have hwalk := walk_of_keyvalParse hd hJ
      refine ⟨by rw [nkeys_of_keyvalParse hJ, hwalk, List.length_map], keyAt_of_walk hwalk, ?_⟩
      intro m hm
      rw [supportedMembers, List.mem_filter, decide_eq_true_eq, keyvalAlone_keep_iff]
      exact and_iff_right hm
    · intro doc' members' hd' hne' hsame
      exact keyvalParse_skip hd hne hd' hne' hsame

/-- The entries of a document with a gap: an entry of a type that is not supported between two
that are usable. -/
def edGapEntries : List Json :=
  [ edJwk [(ascii "kid", .string (ascii "k1"))], .object [(ascii "kty", .string (ascii "none"))],
    edJwk [(ascii "kid", .string (ascii "k2"))] ]

/-- The document. -/
def edGap : Bytes × Json :=
  ( ascii "\x7b\"keys\":[\x7b\"kty\":\"OKP\",\"crv\":\"Ed25519\",\"x\":\"" ++ edX64 ++
      ascii "\",\"kid\":\"k1\"\x7d,\x7b\"kty\":\"none\"\x7d,\x7b\"kty\":\"OKP\"," ++
      ascii "\"crv\":\"Ed25519\",\"x\":\"" ++ edX64 ++ ascii "\",\"kid\":\"k2\"\x7d]\x7d",
    .object [(ascii "keys", .array edGapEntries)] )

/-- Its keyset: the second key is in the slot of the entry that was skipped. -/
def edGapKeys : Jwks Handle := ⟨[edKey (ascii "k1"), edKey (ascii "k2"), .zero], 2⟩

theorem edGap_parsed : jwksParse (edFacts [edGap]).env noParseFaults (some edGap.1) (some ⟨⟩) =
    some edGapKeys := by
  decide +kernel

/-- Both keys are what their entries give alone, and there is no third. -/
theorem parsed_in_order_edGap :
    edGapKeys.nkeys = 2 ∧
      ∀ j, edGapKeys.keyAt j = [edGapEntries[0], edGapEntries[2]][j]?.map fun e =>
        (parsedAlone (edFacts [edGap]).env e).2 := by
  have hd : KeysArray (edFacts [edGap]).env edGap.1 edGapEntries :=
    ⟨by decide +kernel, ⟨edGap.2, @Facts.parse_eq _ [edJwks, edKeyval] _ edGap rfl
      (by decide +kernel) (by decide +kernel), rfl, rfl⟩, by decide⟩
  have husable : usableEntries (edFacts [edGap]).env edGapEntries =
      [edGapEntries[0], edGapEntries[2]] := by
    unfold usableEntries edGapEntries
    rw [List.filter_cons_of_pos (by decide +kernel), List.filter_cons_of_neg (by decide +kernel),
      List.filter_cons_of_pos (by decide +kernel), List.filter_nil]
    rfl
  obtain ⟨-, hjwks, -⟩ := parsed_in_order (edFacts [edGap]).env edGap.1 ⟨⟩
  obtain ⟨-, hkeys, -⟩ := hjwks edGapEntries hd
  obtain ⟨hcount, hat⟩ := hkeys edGapKeys edGap_parsed
  rw [husable] at hcount hat
  exact ⟨hcount, hat⟩

end NxeJwx

/-
# Which copies of a secret outlive the release of their keyset

The octets of an oct key get into three buffers: the one that its slot keeps, the base64url of
the secret, and the text that is hashed.  The first is cleansed with the keyset and the other two
while the thumbprint is computed, but there only on the way to a digest: when the text cannot be
had the base64url of the secret stays, and when there is no digest the text does.

`secrets_scrubbed` is the exact condition.  The argument looks at the events on the buffers of one
entry at a time (`memoryOf`): an entry opens no secret, or it ends in one of the four ways of
`Spill`.
-/
import NxeJwx.Facts
import NxeJwx.Released

namespace NxeJwx

open FillSlots Traced Ledger

variable {PKey : Type}

/-! ## 1. Buffers that are wiped -/

/-- Octets that get into a buffer are cleansed later on, over their whole length. -/
def Scrubbed (tr : List Event) : Prop :=
  ∀ before b octets after, tr = before ++ .hold b octets :: after → octets ≠ [] →
    ∃ len, octets.length ≤ len ∧ .cleanse b len ∈ after

/-- There are octets in a buffer. -/
def Event.secret : Event → Bool
  | .hold _ octets => !octets.isEmpty
  | _ => false

/-- The second event wipes what the first put into a buffer. -/
def Event.wipedBy : Event → Event → Bool
  | .hold b octets, .cleanse b' len => decide (b = b') && decide (octets.length ≤ len)
  | _, _ => false

/-- The answer to octets in a buffer is to cleanse it. -/
theorem scrubbed_iff {tr : List Event} :
    Scrubbed tr ↔ Answered Event.secret Event.wipedBy tr := by
  rw [answered_iff]
  constructor
  · intro h before e after heq hsecret
    cases e with
    | hold b octets =>
      have hne : octets ≠ [] := by simpa [Event.secret] using hsecret
      obtain ⟨len, hlen, hmem⟩ := h before b octets after heq hne
      exact ⟨_, hmem, by simpa [Event.wipedBy] using hlen⟩
    | ledger | cleanse => exact absurd hsecret (by simp [Event.secret])
  · intro h before b octets after heq hne
    obtain ⟨e, hmem, hwiped⟩ := h before _ after heq (by simpa [Event.secret] using hne)
    cases e with
    | cleanse b' len =>
      obtain ⟨rfl, hlen⟩ : b = b' ∧ octets.length ≤ len := by simpa [Event.wipedBy] using hwiped
      exact ⟨len, hlen, hmem⟩
    | ledger | hold => exact absurd hwiped (by simp [Event.wipedBy])

/-! ## 2. The buffers of one entry -/

/-- The entry that a buffer belongs to. -/
def Buffer.entry : Buffer → Nat
  | .secret i => i
  | .kB64 i => i
  | .json i => i

/-- The entry whose buffers an event is about. -/
def Event.entry : Event → Option Nat
  | .ledger _ => none
  | .hold b _ => some b.entry
  | .cleanse b _ => some b.entry

/-- The events on the buffers of an entry. -/
def memoryOf (i : Nat) (tr : List Event) : List Event :=
  tr.filter fun e => decide (e.entry = some i)

/-- The event is on no buffer of another entry. -/
def Within (i : Nat) (e : Event) : Prop := ∀ j, e.entry = some j → j = i

@[simp] theorem memoryOf_append (i : Nat) (tr tr' : List Event) :
    memoryOf i (tr ++ tr') = memoryOf i tr ++ memoryOf i tr' := List.filter_append ..

/-- An event on another entry is none on this one. -/
theorem memoryOf_eq_nil {i : Nat} {tr : List Event} (h : ∀ e ∈ tr, e.entry ≠ some i) :
    memoryOf i tr = [] :=
  List.filter_eq_nil_iff.mpr fun e he => by simpa using h e he

theorem memoryOf_eq_self {i : Nat} {tr : List Event} (h : ∀ e ∈ tr, e.entry = some i) :
    memoryOf i tr = tr :=
  List.filter_eq_self.mpr fun e he => by simpa using h e he

/-- A trace is scrubbed when the buffers of each entry are. -/
theorem scrubbed_iff_memoryOf {tr : List Event} :
    Scrubbed tr ↔ ∀ i, Answered Event.secret Event.wipedBy (memoryOf i tr) := by
  have hclass : ∀ e e' : Event, e.wipedBy e' = true → e.entry = e'.entry := by
    intro e e' h
    cases e <;> cases e' <;> simp_all [Event.wipedBy, Event.entry]
  rw [scrubbed_iff, answered_iff_forall_filter Event.entry hclass]
  constructor
  · intro h i
    exact h (some i)
  · intro h k
    cases k with
    | some i => exact h i
    | none =>
      -- what is on no buffer puts nothing into one
      rw [answered_iff]
      intro before e after heq hsecret
      have hmem : e ∈ tr.filter fun e => decide (e.entry = none) := by
        rw [heq]
        exact List.mem_append_right _ List.mem_cons_self
      have hnone := of_decide_eq_true (List.mem_filter.mp hmem).2
      cases e with
      | hold => exact absurd hnone (by simp [Event.entry])
      | ledger | cleanse => exact absurd hsecret (by simp [Event.secret])

section Inputs

variable {ι : Type} {G : ι × Nat → List Event}

theorem memoryOf_flatMap_of_not_mem {is : List (ι × Nat)} (h : ∀ x ∈ is, ∀ e ∈ G x, Within x.2 e)
    {i : Nat} (hi : i ∉ is.map Prod.snd) : memoryOf i (is.flatMap G) = [] := by
  apply memoryOf_eq_nil
  intro e he hentry
  obtain ⟨x, hx, hex⟩ := List.mem_flatMap.mp he
  exact hi (List.mem_map.mpr ⟨x, hx, (h x hx e hex i hentry).symm⟩)

/-- Of inputs that are numbered apart, each has the events on its own buffers. -/
theorem memoryOf_flatMap_of_mem {is : List (ι × Nat)} (h : ∀ x ∈ is, ∀ e ∈ G x, Within x.2 e)
    (hnodup : (is.map Prod.snd).Nodup) {x : ι × Nat} (hx : x ∈ is) :
    memoryOf x.2 (is.flatMap G) = memoryOf x.2 (G x) := by
  induction is with
  | nil => exact absurd hx List.not_mem_nil
  | cons y is ih =>
    obtain ⟨hnot, hnodup'⟩ := List.nodup_cons.mp hnodup
    have hrest : ∀ x ∈ is, ∀ e ∈ G x, Within x.2 e :=
      fun x hx => h x (List.mem_cons_of_mem _ hx)
    rw [List.flatMap_cons, memoryOf_append]
    rcases List.mem_cons.mp hx with rfl | hx
    · rw [memoryOf_flatMap_of_not_mem hrest hnot, List.append_nil]
    · have hne : y.2 ≠ x.2 := fun heq => hnot (heq ▸ List.mem_map_of_mem hx)
      have hother : memoryOf x.2 (G y) = [] := memoryOf_eq_nil fun e he hentry =>
        hne (h y List.mem_cons_self e he _ hentry).symm
      rw [hother, List.nil_append]
      exact ih hrest hnodup' hx

end Inputs

/-! ## 3. What an entry puts into memory -/

variable {E : Env PKey} {L : Leftovers} {F : ParseFaults}

/-- The code decodes the secret of an entry: it is an oct key that gets as far as that. -/
structure Opened (E : Env PKey) (f : EntryFaults) (jwk : Json) (src : Bytes) : Prop where
  hmac : E.haveHmac = true
  admitted : Admitted f jwk (ascii "oct")
  k_eq : jwk.stringAt (ascii "k") = some src
  nonempty : src ≠ []
  buffer : f (.field (ascii "k")) = false

/-- Nothing of the thumbprint of a secret stays: its encoding cannot be had, or its text can be
had and the digest of it is computed. -/
def ThumbprintScrubs (E : Env PKey) (f : ThumbprintFaults) (secret : Bytes) : Prop :=
  f .first = true ∨ (f .text = false ∧ digested E f (octText E secret) = true)

/-- Nothing of a secret stays: a decoder that rejects it has written nothing, and of a secret
that is not empty the thumbprint leaves nothing. -/
def Scrubs (E : Env PKey) (L : Leftovers) (f : EntryFaults) (src : Bytes) : Prop :=
  match E.b64.decode src with
  | none => L.decoded src = []
  | some secret => secret = [] ∨ ThumbprintScrubs E (fun s => f (.thumbprint s)) secret

/-- What an entry does to its buffers, from whether its slot is kept. -/
inductive Spill (E : Env PKey) (L : Leftovers) (f : EntryFaults) (i : Nat) (jwk : Json) :
    Bool → Slot PKey → List Event → Prop
  | none {kept : Bool} {k : Slot PKey} {evs : List Event} (opened : ∀ src, ¬ Opened E f jwk src)
      (secretOf : kept = true → k.secretOf = Option.none)
      (events : ∀ e ∈ evs, e.entry = Option.none) : Spill E L f i jwk kept k evs
  | rejected {k : Slot PKey} {src : Bytes} (opened : Opened E f jwk src)
      (decode : E.b64.decode src = Option.none) :
      Spill E L f i jwk false k [.hold (.secret i) (L.decoded src)]
  | empty {k : Slot PKey} {src : Bytes} (opened : Opened E f jwk src)
      (decode : E.b64.decode src = some []) : Spill E L f i jwk false k [.hold (.secret i) []]
  | kept {k : Slot PKey} {src secret : Bytes} {key : Key PKey} (opened : Opened E f jwk src)
      (decode : E.b64.decode src = some secret) (nonempty : secret ≠ []) (kty : key.kty = .oct)
      (key_eq : key.hmacSecret = secret) (secretOf : k.secretOf = some i)
      (hmacSecret : k.key.hmacSecret = secret) :
      Spill E L f i jwk true k (.hold (.secret i) secret ::
        (jwkThumbprintLogged E (fun s => f (.thumbprint s)) i key).events)

/-- An entry that is refused before its secret is decoded. -/
theorem Spill.refused {f : EntryFaults} {i : Nat} {jwk : Json} {kept : Bool} {k : Slot PKey}
    (hkept : kept = false) (opened : ∀ src, ¬ Opened E f jwk src) :
    Spill E L f i jwk kept k [] := by
  rw [hkept]
  exact .none opened (fun h => absurd h (by decide)) (fun e he => absurd he List.not_mem_nil)

/-- A public key, or none, touches no buffer. -/
theorem Builds.quiet {k : Slot PKey} {i : Nat} {x : Traced Event (Rc × Slot PKey)}
    (h : Builds k i x) (hk : k.secretOf = none) :
    (∀ e ∈ x.events, e.entry = none) ∧ x.val.2.secretOf = none ∧
      (x.val.1 = .ok → x.val.2.key.kty ≠ .oct) := by
  cases h with
  | refused hrc =>
    refine ⟨fun e he => absurd he List.not_mem_nil, hk, ?_⟩
    intro hok
    obtain rfl : _ = Rc.ok := hok
    exact absurd hrc (by decide)
  | built half made hkty =>
    cases made with
    | some pkey =>
      refine ⟨?_, hk, fun _ => hkty⟩
      intro e he
      obtain rfl := List.mem_singleton.mp he
      rfl
    | none =>
      cases half with
      | false => exact ⟨fun e he => absurd he List.not_mem_nil, hk, fun hok => Rc.noConfusion hok⟩
      | true =>
        refine ⟨?_, hk, fun hok => Rc.noConfusion hok⟩
        intro e he
        rcases List.mem_pair.mp he with rfl | rfl <;> rfl

theorem spill_admitted {f : EntryFaults} {kty : Bytes} {jwk : Json} (h : Admitted f jwk kty)
    (i : Nat) :
    Spill E L f i jwk ((admittedLogged E L f i kty jwk).val.1 == .ok)
      (admittedLogged E L f i kty jwk).val.2 (admittedLogged E L f i kty jwk).events := by
  by_cases hoct : (E.haveHmac && isName kty (ascii "oct")) = true
  · obtain ⟨hmac, hname⟩ := Bool.and_eq_true_iff.mp hoct
    obtain rfl := (isName_iff (by decide)).mp hname
    unfold admittedLogged
    rw [parseKtyLogged_oct hmac, parseOctLogged, b64urlFieldLogged]
    cases hk : jwk.stringAt (ascii "k") with
    | none =>
      exact .refused rfl fun src ho => absurd (hk.symm.trans ho.k_eq) (by simp)
    | some src =>
      have hsrc : ∀ src', Opened E f jwk src' → src' = src := fun src' ho =>
        Option.some.inj (ho.k_eq.symm.trans hk)
      dsimp only
      split
      next hlen =>
        refine .refused rfl fun src' ho => ho.nonempty ?_
        rw [hsrc src' ho]
        exact List.length_eq_zero_iff.mp hlen
      next hlen =>
      split
      next hf =>
        exact .refused rfl fun src' ho => absurd (hf.symm.trans ho.buffer) (by decide)
      next hf =>
      have hopened : Opened E f jwk src := ⟨hmac, h, hk,
        fun hnil => hlen (by rw [hnil]; rfl), Bool.eq_false_iff.mpr hf⟩
      cases hd : E.b64.decode src with
      | none => exact .rejected hopened hd
      | some secret =>
        dsimp only
        by_cases hs : secret = []
        · subst hs
          exact .empty hopened hd
        · have hne : secret.length ≠ 0 := fun h0 => hs (List.length_eq_zero_iff.mp h0)
          have heq : ∀ x y : Traced Event (Rc × Slot PKey),
              (if secret.length = 0 then x else y) = y := fun _ _ => if_neg hne
          simp only [val_bind, events_bind, val_pure, events_pure, events_emit, heq, if_true,
            List.append_nil, beq_self_eq_true, val_jwkThumbprintLogged]
          exact .kept hopened hd hs rfl rfl rfl (jwkThumbprint_keeps _ _).2
  · obtain ⟨hevents, hsecretOf, hkty⟩ :=
      (builds_parseKty (L := L) hoct f i (.ofKey (labelled jwk)) jwk).quiet rfl
    have hno : ∀ src, ¬ Opened E f jwk src := by
      intro src ho
      refine hoct ?_
      obtain rfl := Option.some.inj (h.kty_eq.symm.trans ho.admitted.kty_eq)
      rw [ho.hmac]
      decide
    unfold admittedLogged
    rw [val_bind, events_bind]
    split
    next hok =>
      refine .none hno (fun _ => hsecretOf) ?_
      have hno := hkty hok
      rw [events_bind, events_jwkThumbprintLogged _ _ (by simp [hno])]
      simpa using hevents
    · exact .none hno (fun _ => hsecretOf) (by simpa using hevents)

theorem spill_jwks (x : Json × Nat) :
    Spill E L (F.entry x.2) x.2 x.1 (jwksOut E F x == .keep) (jwksSlot E L F x)
      (jwksEvents E L F x) := by
  rw [← outcome_jwksStep (L := L) x .zero]
  unfold jwksSlot jwksEvents jwksStepLogged
  split
  next hobj =>
    refine .refused rfl ?_
    intro src ho
    rw [isObject_of_stringAt ho.k_eq] at hobj
    exact absurd hobj (by decide)
  rw [val_bind, events_bind]
  rcases parseOneKeyLogged_cases E L (F.entry x.2) x.2 .zero x.1 with
    ⟨kty, hadmitted, heq⟩ | ⟨hno, rc, key, hrc, heq⟩
  · have h := spill_admitted (E := E) (L := L) hadmitted x.2
    rw [heq]
    cases hr : (admittedLogged E L (F.entry x.2) x.2 kty x.1).val with
    | mk rc k =>
      rw [hr] at h
      cases rc <;> (rw [events_pure, List.append_nil]; exact h)
  · rw [heq]
    have hclosed : ∀ src, ¬ Opened E (F.entry x.2) x.1 src := fun src ho => hno _ ho.admitted
    cases rc with
    | ok => exact absurd hrc (by decide)
    | declined | error => exact .refused rfl hclosed

/-! ## 4. The buffers of an entry, to the end -/

section Entry

variable {f : EntryFaults} {i : Nat} {jwk : Json} {kept : Bool} {k : Slot PKey} {evs : List Event}

/-- An entry has one secret at most. -/
theorem Opened.unique {src src' : Bytes} (h : Opened E f jwk src) (h' : Opened E f jwk src') :
    src' = src := Option.some.inj (h'.k_eq.symm.trans h.k_eq)

theorem forall_opened {src : Bytes} (h : Opened E f jwk src) :
    (∀ src, Opened E f jwk src → Scrubs E L f src) ↔ Scrubs E L f src :=
  ⟨fun hall => hall src h, fun hs _ h' => h.unique h' ▸ hs⟩

/-- The thumbprint of a secret touches the buffers of its entry. -/
theorem entry_jwkThumbprintLogged (hmac : E.haveHmac = true) (f : ThumbprintFaults) (i : Nat)
    {key : Key PKey} (hkty : key.kty = .oct) :
    ∀ e ∈ (jwkThumbprintLogged E f i key).events, e.entry = some i := by
  rw [events_jwkThumbprintLogged_oct hmac f i hkty]
  intro e he
  split at he
  · exact absurd he List.not_mem_nil
  rcases List.mem_cons.mp he with rfl | he
  · rfl
  split at he
  · exact absurd he List.not_mem_nil
  rcases List.mem_cons.mp he with rfl | he
  · rfl
  rcases List.mem_cons.mp he with rfl | he
  · rfl
  split at he
  · obtain rfl := List.mem_singleton.mp he
    rfl
  · exact absurd he List.not_mem_nil

/-- Its buffers are wiped exactly when nothing of it stays, whatever is cleansed besides. -/
theorem answered_jwkThumbprintLogged (h64 : E.b64.Lawful) (hmac : E.haveHmac = true)
    (f : ThumbprintFaults) (i len : Nat) {key : Key PKey} (hkty : key.kty = .oct)
    (hne : key.hmacSecret ≠ []) :
    Answered Event.secret Event.wipedBy
        ((jwkThumbprintLogged E f i key).events ++ [.cleanse (.secret i) len]) ↔
      ThumbprintScrubs E f key.hmacSecret := by
  have hkB64 : E.b64.encode key.hmacSecret ≠ [] := fun h => hne (h64.encode_eq_nil_iff.mp h)
  have hjson : octText E key.hmacSecret ≠ [] := List.cons_ne_nil 123 _
  rw [events_jwkThumbprintLogged_oct hmac f i hkty, ThumbprintScrubs]
  cases f .first with
  | true => simp [Event.secret]
  | false =>
    cases f .text with
    | true => simp [Event.secret, Event.wipedBy, hkB64]
    | false =>
      cases digested E f (octText E key.hmacSecret) with
      | true => simp [Event.secret, Event.wipedBy]
      | false => simp [Event.secret, Event.wipedBy, hjson]

/-- Cleanup touches the secret of a slot. -/
theorem memoryOf_releaseEvents (haveHmac : Bool) (i : Nat) (k : Slot PKey) :
    memoryOf i (releaseEvents haveHmac k) = memoryOf i (secretEvents haveHmac k) := by
  rw [releaseEvents, memoryOf_append, pkeyEvents]
  cases k.pkeyOf <;> rfl

/-- What cleanup does for an entry: something if its slot is kept. -/
def releasedBy (haveHmac kept : Bool) (k : Slot PKey) : List Event :=
  if kept then releaseEvents haveHmac k else []

/-- An entry touches no buffer of another, and neither does its cleanup. -/
theorem Spill.within (h : Spill E L f i jwk kept k evs) :
    ∀ e ∈ evs ++ releasedBy E.haveHmac kept k, Within i e := by
  have hrelease : ∀ e ∈ releasedBy E.haveHmac kept k, Within i e := by
    intro e he j hj
    unfold releasedBy at he
    split at he
    case isFalse => exact absurd he List.not_mem_nil
    next hkept =>
    have hsecretOf : k.secretOf = Option.none ∨ k.secretOf = some i := by
      cases h with
      | none _ secretOf => exact .inl (secretOf hkept)
      | rejected | empty => exact absurd hkept (by decide)
      | kept _ _ _ _ _ secretOf => exact .inr secretOf
    rcases List.mem_append.mp he with he | he
    · unfold pkeyEvents at he
      cases hp : k.pkeyOf with
      | none => simp [hp] at he
      | some _ =>
        simp only [hp, List.mem_singleton] at he
        exact absurd (he ▸ hj) (by simp [Event.entry])
    · unfold secretEvents at he
      rcases hsecretOf with hs | hs
      · simp [hs] at he
      · simp only [hs] at he
        split at he
        · obtain rfl := List.mem_singleton.mp he
          exact (Option.some.inj hj).symm
        · exact absurd he List.not_mem_nil
  intro e hmem
  rcases List.mem_append.mp hmem with he | he
  case inr => exact hrelease e he
  clear hmem
  intro j hj
  cases h with
  | none _ _ events => exact absurd ((events e he).symm.trans hj) (by simp)
  | rejected | empty =>
    obtain rfl := List.mem_singleton.mp he
    exact (Option.some.inj hj).symm
  | kept opened _ _ kty =>
    rcases List.mem_cons.mp he with rfl | he
    · exact (Option.some.inj hj).symm
    · have hi := entry_jwkThumbprintLogged opened.hmac _ i kty e he
      exact (Option.some.inj (hi.symm.trans hj)).symm

/-- **One entry.**  With its cleanup, its buffers are wiped exactly when nothing of its secret
stays. -/
theorem Spill.answered (h64 : E.b64.Lawful) (h : Spill E L f i jwk kept k evs) :
    Answered Event.secret Event.wipedBy
        (memoryOf i (evs ++ releasedBy E.haveHmac kept k)) ↔
      ∀ src, Opened E f jwk src → Scrubs E L f src := by
  rw [memoryOf_append]
  cases h with
  | none opened secretOf events =>
    have hnone : memoryOf i evs = [] := memoryOf_eq_nil fun e he => by simp [events e he]
    have hreleased : memoryOf i (releasedBy E.haveHmac kept k) = [] := by
      unfold releasedBy
      split
      next hkept => rw [memoryOf_releaseEvents, secretEvents, secretOf hkept]; rfl
      · rfl
    rw [hnone, hreleased]
    exact iff_of_true answered_nil fun src ho => absurd ho (opened src)
  | rejected opened decode =>
    rw [forall_opened opened, memoryOf_eq_self (by simp [Event.entry, Buffer.entry])]
    simp [releasedBy, memoryOf, Scrubs, decode, Event.secret]
  | empty opened decode =>
    rw [forall_opened opened, memoryOf_eq_self (by simp [Event.entry, Buffer.entry])]
    simp [releasedBy, memoryOf, Scrubs, decode, Event.secret]
  | @kept k src secret key opened decode nonempty kty key_eq secretOf hmacSecret =>
    subst key_eq
    have hentry := entry_jwkThumbprintLogged opened.hmac (fun s => f (.thumbprint s)) i kty
    have hreleased : memoryOf i (releasedBy E.haveHmac true k) =
        [.cleanse (.secret i) key.hmacSecret.length] := by
      have hpos := List.length_pos_iff.mpr nonempty
      rw [releasedBy, if_pos rfl, memoryOf_releaseEvents, secretEvents, secretOf]
      simp [hmacSecret, opened.hmac, hpos, memoryOf, Event.entry, Buffer.entry]
    have hself : memoryOf i (.hold (.secret i) key.hmacSecret ::
        (jwkThumbprintLogged E (fun s => f (.thumbprint s)) i key).events) = _ :=
      memoryOf_eq_self fun e he => (List.mem_cons.mp he).elim (fun h => h ▸ rfl) (hentry e)
    rw [forall_opened opened, hself, hreleased, List.cons_append, answered_cons,
      answered_jwkThumbprintLogged h64 opened.hmac _ i _ kty nonempty]
    have hscrubs : Scrubs E L f src ↔
        ThumbprintScrubs E (fun s => f (.thumbprint s)) key.hmacSecret := by
      simp [Scrubs, decode, nonempty]
    rw [hscrubs]
    -- the octets of the secret itself are cleansed with the keyset
    refine and_iff_right fun _ => ⟨_, List.mem_append_right _ List.mem_cons_self, ?_⟩
    simp [Event.wipedBy]

end Entry

/-! ## 5. The document -/

/-- The entries of a document that its parse looks at: those before which no entry is a hard
error. -/
def LookedAt (E : Env PKey) (F : ParseFaults) (doc : Option Bytes) (pool : Option Pool)
    (x : Json × Nat) : Prop :=
  ∃ d entries before after, doc = some d ∧ pool ≠ none ∧ KeysArray E d entries ∧
    F.root = false ∧ F.alloc = false ∧ entries.zipIdx = before ++ x :: after ∧
    ∀ y ∈ before, jwksOut E F y ≠ .abort

/-- What the parse of an entry does to its buffers, and its cleanup. -/
def localEvents (E : Env PKey) (L : Leftovers) (F : ParseFaults) (x : Json × Nat) : List Event :=
  jwksEvents E L F x ++ releasedBy E.haveHmac (jwksOut E F x == .keep) (jwksSlot E L F x)

/-- The events on the buffers of one entry, of those of a list of entries and of the cleanup of
their slots. -/
theorem memoryOf_visited {is : List (Json × Nat)} (hnodup : (is.map Prod.snd).Nodup) {i : Nat} :
    (∀ x ∈ is, x.2 = i → memoryOf i (is.flatMap (jwksEvents E L F) ++
        (keptOf (jwksOut E F) (jwksSlot E L F) is).flatMap (releaseEvents E.haveHmac)) =
      memoryOf i (localEvents E L F x)) ∧
    (i ∉ is.map Prod.snd → memoryOf i (is.flatMap (jwksEvents E L F) ++
        (keptOf (jwksOut E F) (jwksSlot E L F) is).flatMap (releaseEvents E.haveHmac)) = []) := by
  have hkept : (keptOf (jwksOut E F) (jwksSlot E L F) is).flatMap (releaseEvents E.haveHmac) =
      is.flatMap fun x => releasedBy E.haveHmac (jwksOut E F x == .keep) (jwksSlot E L F x) := by
    simp only [flatMap_keptOf, releasedBy, beq_iff_eq]
  have hparse : ∀ x ∈ is, ∀ e ∈ jwksEvents E L F x, Within x.2 e := fun x _ e he =>
    (spill_jwks x).within e (List.mem_append_left _ he)
  have hrelease : ∀ x ∈ is,
      ∀ e ∈ releasedBy E.haveHmac (jwksOut E F x == .keep) (jwksSlot E L F x), Within x.2 e :=
    fun x _ e he => (spill_jwks x).within e (List.mem_append_right _ he)
  rw [hkept, memoryOf_append]
  constructor
  · rintro x hx rfl
    rw [memoryOf_flatMap_of_mem hparse hnodup hx, memoryOf_flatMap_of_mem hrelease hnodup hx,
      localEvents, memoryOf_append]
  · intro hi
    rw [memoryOf_flatMap_of_not_mem hparse hi, memoryOf_flatMap_of_not_mem hrelease hi]
    rfl

/-- The buffers of an entry over the life of a keyset that is released: those that the loop looks
at, and no others. -/
theorem memoryOf_life {d : Bytes} {entries : List Json} (hd : KeysArray E d entries)
    (hroot : F.root = false) (halloc : F.alloc = false) (pool : Pool) {n : Nat} {destroyed : Bool}
    (hreleased : destroyed = true ∨ jwksParse E F (some d) (some pool) ≠ none ∧ 0 < n) {i : Nat} :
    (∀ x ∈ visited (jwksOut E F) entries.zipIdx, x.2 = i →
      memoryOf i (life E.haveHmac n destroyed (jwksParseLogged E L F (some d) (some pool))) =
        memoryOf i (localEvents E L F x)) ∧
    (i ∉ (visited (jwksOut E F) entries.zipIdx).map Prod.snd →
      memoryOf i (life E.haveHmac n destroyed (jwksParseLogged E L F (some d) (some pool))) =
        []) := by
  obtain ⟨s, hkeyset, hfilled, hevents⟩ := looped_visited (jwksStep_tracked E L F) trivial
    (zipIdx_le_capacity entries) (fun _ _ => rfl)
  rw [← jwksParseLogged_eq_looped hroot halloc hd pool] at hkeyset hevents
  have hafter : ((jwksParseLogged E L F (some d) (some pool)).val.returned = true ∧ 0 < n) ∨
      destroyed = true := by
    rcases hreleased with hdestroyed | ⟨hJ, hn⟩
    · exact .inr hdestroyed
    · refine .inl ⟨?_, hn⟩
      rw [← val_jwksParseLogged (L := L), Parsed.jwks] at hJ
      by_contra hret
      exact hJ (if_neg hret)
  have hnodup := (nodup_zipIdx entries).sublist
    ((visited_sublist (jwksOut E F) entries.zipIdx).map Prod.snd)
  have hmemory : memoryOf i (life E.haveHmac n destroyed
      (jwksParseLogged E L F (some d) (some pool))) =
      memoryOf i ((visited (jwksOut E F) entries.zipIdx).flatMap (jwksEvents E L F) ++
        (keptOf (jwksOut E F) (jwksSlot E L F) (visited (jwksOut E F) entries.zipIdx)).flatMap
          (releaseEvents E.haveHmac)) := by
    rw [life, events_bind, events_afterwards n destroyed hkeyset, if_pos hafter, hevents, hfilled]
    simp [memoryOf, Event.entry]
  rw [hmemory]
  exact memoryOf_visited hnodup

/-- A document that is given up before its loop puts no secret anywhere. -/
theorem scrubbed_given_up {haveHmac destroyed : Bool} {n : Nat}
    {x : Traced Event (Parsed PKey)} (h : x = pure .nothing ∨ x = gaveUp) :
    Scrubbed (life haveHmac n destroyed x) := by
  rw [scrubbed_iff, life, events_bind]
  rcases h with rfl | rfl
  · rw [events_afterwards_none n destroyed rfl]
    exact answered_nil
  · rw [events_afterwards_none n destroyed rfl]
    change Answered Event.secret Event.wipedBy [.ledger (.acquire .root), .ledger (.release .root)]
    decide

/-- **Which copies of a secret outlive the release of their keyset.**  Once the keyset is freed
or its pool destroyed, every buffer that held a secret in some form has been cleansed exactly
when nothing stays of the secret of any entry that the parse looks at. -/
theorem secrets_scrubbed (h64 : E.b64.Lawful) (L : Leftovers) (F : ParseFaults)
    (doc : Option Bytes) (pool : Option Pool) (n : Nat) (destroyed : Bool)
    (hreleased : destroyed = true ∨ jwksParse E F doc pool ≠ none ∧ 0 < n) :
    Scrubbed (life E.haveHmac n destroyed (jwksParseLogged E L F doc pool)) ↔
      ∀ x, LookedAt E F doc pool x → ∀ src, Opened E (F.entry x.2) x.1 src →
        Scrubs E L (F.entry x.2) src := by
  by_cases hloop : ∃ d entries, doc = some d ∧ pool ≠ none ∧ KeysArray E d entries ∧
      F.root = false ∧ F.alloc = false
  case neg =>
    have hgiven : jwksParseLogged E L F doc pool = pure .nothing ∨
        jwksParseLogged E L F doc pool = gaveUp := by
      rcases jwksParseLogged_cases E L F doc pool with h | h |
        ⟨d, entries, hdoc, hpool, hd, hroot, halloc, -⟩
      · exact .inl h
      · exact .inr h
      · exact absurd ⟨d, entries, hdoc, Option.isSome_iff_ne_none.mp hpool, hd, hroot, halloc⟩
          hloop
    refine iff_of_true (scrubbed_given_up hgiven) ?_
    rintro x ⟨d, entries, -, -, hdoc, hpool, hd, hroot, halloc, -⟩
    exact absurd ⟨d, entries, hdoc, hpool, hd, hroot, halloc⟩ hloop
  obtain ⟨d, entries, rfl, hpool, hd, hroot, halloc⟩ := hloop
  obtain ⟨pool, rfl⟩ := Option.ne_none_iff_exists'.mp hpool
  have hlooked : ∀ x, LookedAt E F (some d) (some pool) x ↔
      x ∈ visited (jwksOut E F) entries.zipIdx := by
    intro x
    rw [mem_visited_iff]
    constructor
    · rintro ⟨d', entries', before, after, hd', -, hkeys, -, -, hx⟩
      obtain rfl := Option.some.inj hd'
      obtain rfl := hd.unique hkeys
      exact ⟨before, after, hx⟩
    · rintro ⟨before, after, hx⟩
      exact ⟨d, entries, before, after, rfl, hpool, hd, hroot, halloc, hx⟩
  rw [scrubbed_iff_memoryOf]
  constructor
  · intro h x hx
    have hi := h x.2
    rw [(memoryOf_life hd hroot halloc pool hreleased).1 x ((hlooked x).mp hx) rfl] at hi
    exact ((spill_jwks x).answered h64).mp hi
  · intro h i
    by_cases hi : i ∈ (visited (jwksOut E F) entries.zipIdx).map Prod.snd
    · obtain ⟨x, hx, rfl⟩ := List.mem_map.mp hi
      rw [(memoryOf_life hd hroot halloc pool hreleased).1 x hx rfl]
      exact ((spill_jwks x).answered h64).mpr (h x ((hlooked x).mpr hx))
    · rw [(memoryOf_life hd hroot halloc pool hreleased).2 hi]
      exact answered_nil

/-! ### A secret

The JWKS `octJwks`, and the hash of the canonical text of its key. -/

/-- The facts about a secret. -/
def octFacts : Facts where
  documents := [octJwks]
  hashes :=
    [ ( ascii "\x7b\"k\":\"c2VjcmV0\",\"kty\":\"oct\"\x7d",
        (stubDecode (ascii "DWBh0SEIAPYh1x5uvot4z3AhaikHkxNJa3Ada2fT-Cg")).getD [] ) ]

/-- One step of the thumbprint fails. -/
def thumbprintFault (s : ThumbprintStep) : ParseFaults :=
  ⟨false, false, fun _ s' => s' == .thumbprint s⟩

theorem keysArray_oct : KeysArray octFacts.env octJwks.1 [octJwk] where
  size := by decide +kernel
  parse := ⟨octJwks.2, @Facts.parse_eq _ [] _ octJwks rfl rfl (by decide +kernel), rfl, rfl⟩
  count := by decide +kernel

/-- When the text of the key cannot be had, or its digest, the keyset is returned with the key in
it, and after it was freed and its pool destroyed a copy of the secret is still there. -/
theorem secret_outlives_release :
    KeysArray octFacts.env octJwks.1 [octJwk] ∧
    ∀ s ∈ [ThumbprintStep.text, ThumbprintStep.digest],
      ((jwksParse octFacts.env (thumbprintFault s) (some octJwks.1) (some ⟨⟩)).map
        fun J => J.walk.map Key.hmacSecret) = some [ascii "secret"] ∧
      ¬ Scrubbed (life octFacts.env.haveHmac 1 true
        (jwksParseLogged octFacts.env noLeftovers (thumbprintFault s) (some octJwks.1)
          (some ⟨⟩))) := by
  refine ⟨keysArray_oct, ?_⟩
  simp only [scrubbed_iff]
  decide +kernel

/-- When no step fails, none is. -/
theorem secrets_scrubbed_oct :
    Scrubbed (life octFacts.env.haveHmac 1 true
      (jwksParseLogged octFacts.env noLeftovers noParseFaults (some octJwks.1) (some ⟨⟩))) := by
  refine (secrets_scrubbed stubCodec_lawful noLeftovers noParseFaults (some octJwks.1) (some ⟨⟩) 1
    true (.inl rfl)).mpr ?_
  rintro x ⟨d, entries, before, after, hd, -, hkeys, -, -, hx, -⟩ src ho
  obtain rfl := Option.some.inj hd
  obtain rfl := keysArray_oct.unique hkeys
  have hmem : x ∈ [octJwk].zipIdx := hx ▸ List.mem_append_right before List.mem_cons_self
  obtain rfl : x = (octJwk, 0) := List.mem_singleton.mp hmem
  obtain rfl : ascii "c2VjcmV0" = src := Option.some.inj ho.k_eq
  have hdecode : octFacts.env.b64.decode (ascii "c2VjcmV0") = some (ascii "secret") := by
    decide +kernel
  rw [Scrubs, hdecode]
  exact .inr (.inr ⟨rfl, by decide +kernel⟩)

end NxeJwx

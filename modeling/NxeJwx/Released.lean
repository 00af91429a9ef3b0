/-
# Every handle is released exactly once

Over the whole life of a keyset, whichever steps of the parse fail, each `EVP_PKEY` and the JSON
root is freed exactly once, and the secret of each counted key is cleansed
(`handles_released_once`).  An entry that is kept leaves its handle in its slot and any other
leaves none behind (`Effect`), so the books of a parse hold the root and the handles of the
counted slots, at every turn of its loop (`holds_visited`); leaving the parser and the cleanup
after it settle them.
-/
import NxeJwx.Cleanup
import NxeJwx.EntryEffects

namespace NxeJwx

open FillSlots Traced Ledger

variable {PKey : Type} {haveHmac : Bool} {E : Env PKey} {L : Leftovers} {F : ParseFaults}

/-! ## 1. The books of a loop -/

/-- The handles that slots hold. -/
def handlesOf (ks : List (Slot PKey)) : List Resource :=
  ks.filterMap fun k => k.pkeyOf.map .pkey

theorem handlesOf_append (ks ks' : List (Slot PKey)) :
    handlesOf (ks ++ ks') = handlesOf ks ++ handlesOf ks' := List.filterMap_append ..

section Loop

variable {ι : Type} {out : ι × Nat → Outcome} {val : ι × Nat → Slot PKey}
  {evs : ι × Nat → List Event}

/-- One turn: a handle that is made is held in a kept slot, or it is freed. -/
theorem holds_turn {x : ι × Nat} (h : Effect haveHmac x.2 (out x == .keep) (val x) (evs x))
    {tr : List Event} {held : List Resource} (hh : Holds (books tr) held)
    (hfresh : about (.pkey x.2) (books tr) = []) :
    Holds (books (tr ++ evs x)) (held ++ handlesOf (keptOf out val [x])) := by
  have hkept : ∀ b, (out x == .keep) = b →
      keptOf out val [x] = if b then [val x] else [] := by
    rintro b rfl
    by_cases ho : out x = .keep <;> simp [keptOf, ho]
  rw [books_append, hkept _ rfl]
  generalize (out x == .keep) = b at h
  cases h with
  | pkey pkeyOf _ _ books =>
    rw [books, if_pos rfl, show handlesOf [val x] = [.pkey x.2] by simp [handlesOf, pkeyOf]]
    exact hh.acquire hfresh
  | secret pkeyOf _ _ _ _ books =>
    rw [books, if_pos rfl, show handlesOf [val x] = [] by simp [handlesOf, pkeyOf]]
    simpa using hh
  | nothing books =>
    rw [books]
    simpa [handlesOf] using hh
  | freed books =>
    rw [books]
    simpa [handlesOf] using hh.bounce hfresh

/-- The entries of an input in the ledger are about its own handle. -/
theorem Effect.about_other {i j : Nat} (hij : i ≠ j) {kept : Bool} {k : Slot PKey}
    {evs : List Event} (h : Effect haveHmac i kept k evs) : about (.pkey j) (books evs) = [] := by
  have hne : Resource.pkey i ≠ .pkey j := fun h => hij (Resource.pkey.inj h)
  cases h with
  | pkey _ _ _ books => rw [books, about_acquire_ne hne, about_nil]
  | secret _ _ _ _ _ books | nothing books => rw [books, about_nil]
  | freed books => rw [books, about_acquire_ne hne, about_release_ne hne, about_nil]

/-- After the inputs that the loop looks at, the handles of the kept slots are held on top of
what was held before. -/
theorem holds_visited (is : List (ι × Nat)) (hnodup : (is.map Prod.snd).Nodup)
    (h : ∀ x ∈ is, Effect haveHmac x.2 (out x == .keep) (val x) (evs x))
    {tr : List Event} {held : List Resource} (hh : Holds (books tr) held)
    (hfresh : ∀ x ∈ is, about (.pkey x.2) (books tr) = []) :
    Holds (books (tr ++ is.flatMap evs)) (held ++ handlesOf (keptOf out val is)) := by
  induction is generalizing tr held with
  | nil => simpa [keptOf, handlesOf] using hh
  | cons x is ih =>
    have hx := h x List.mem_cons_self
    obtain ⟨hnot, hnodup'⟩ := List.nodup_cons.mp hnodup
    have hturn := holds_turn hx hh (hfresh x List.mem_cons_self)
    have hrest : ∀ y ∈ is, about (.pkey y.2) (books (tr ++ evs x)) = [] := by
      intro y hy
      have hne : x.2 ≠ y.2 := fun heq => hnot (heq ▸ List.mem_map_of_mem hy)
      rw [books_append, about_append, hfresh y (List.mem_cons_of_mem _ hy), hx.about_other hne]
      rfl
    have hrun := ih hnodup' (fun y hy => h y (List.mem_cons_of_mem _ hy)) hturn hrest
    have hkept : keptOf out val (x :: is) = keptOf out val [x] ++ keptOf out val is := by
      by_cases ho : out x = .keep <;> simp [keptOf, ho]
    rw [List.flatMap_cons, ← List.append_assoc, hkept, handlesOf_append, ← List.append_assoc]
    exact hrun

end Loop

/-- Cleanup releases the handles of its slots. -/
theorem books_releaseEvents (ks : List (Slot PKey)) :
    books (ks.flatMap (releaseEvents haveHmac)) = (handlesOf ks).map .release := by
  induction ks with
  | nil => rfl
  | cons k ks ih =>
    have hsecret : books (secretEvents haveHmac k) = [] := by
      unfold secretEvents
      cases k.secretOf with
      | none => rfl
      | some i =>
        dsimp only
        split <;> rfl
    rw [List.flatMap_cons, books_append, ih, releaseEvents, books_append, hsecret,
      List.append_nil, pkeyEvents]
    cases hp : k.pkeyOf <;> simp [handlesOf, hp]

/-! ## 2. The books of a life -/

/-- How a parse goes: it makes nothing; or it leaves with the root released before there is a
keyset; or it runs its loop, over inputs that are numbered apart, and leaves after that. -/
inductive Goes (haveHmac : Bool) : Traced Event (Parsed PKey) → Prop
  | nothing {x : Traced Event (Parsed PKey)} (keyset : x.val.keyset = none)
      (events : x.events = []) : Goes haveHmac x
  | left {x : Traced Event (Parsed PKey)} (keyset : x.val.keyset = none)
      (events : x.events = [.ledger (.acquire .root), .ledger (.release .root)]) : Goes haveHmac x
  | loop {x : Traced Event (Parsed PKey)} {ι : Type} {out : ι × Nat → Outcome}
      {val : ι × Nat → Slot PKey} {evs : ι × Nat → List Event} {is : List (ι × Nat)}
      {s : Slots (Slot PKey)} (keyset : x.val.keyset = some s) (nodup : (is.map Prod.snd).Nodup)
      (effect : ∀ x ∈ is, Effect haveHmac x.2 (out x == .keep) (val x) (evs x))
      (filled : s.filled = keptOf out val is)
      (events : x.events = .ledger (.acquire .root) :: is.flatMap evs ++
        [.ledger (.release .root)]) : Goes haveHmac x

/-- What a life does to the resources, and to the secrets of the counted keys. -/
structure Released (haveHmac : Bool) (n : Nat) (x : Traced Event (Parsed PKey)) : Prop where
  once : ∀ r, Settled r (books (life haveHmac n true x))
  cleansed : ∀ s, x.val.keyset = some s → ∀ k ∈ s.filled, k.key.hmacSecret ≠ [] →
    ∃ i, k.secretOf = some i ∧ .hold (.secret i) k.key.hmacSecret ∈ x.events ∧
      .cleanse (.secret i) k.key.hmacSecret.length ∈
        (afterwards haveHmac n true x.val).events

theorem released_of_goes {x : Traced Event (Parsed PKey)} (h : Goes haveHmac x) (n : Nat) :
    Released haveHmac n x := by
  cases h with
  | nothing keyset events =>
    constructor
    · intro r
      rw [life, events_bind, events, events_afterwards_none n true keyset]
      exact .inl rfl
    · intro s hs
      exact absurd (keyset.symm.trans hs) (by simp)
  | left keyset events =>
    constructor
    · intro r
      rw [life, events_bind, events, events_afterwards_none n true keyset]
      exact (holds_nil.bounce rfl).settled_all r
    · intro s hs
      exact absurd (keyset.symm.trans hs) (by simp)
  | @loop ι out val evs is s keyset nodup effect filled events =>
    constructor
    · intro r
      rw [life, events_bind, events, events_afterwards n true keyset, if_pos (.inr rfl), filled]
      -- the root is held during the loop, the handles of the slots until cleanup
      have hroot : Holds (books [.ledger (.acquire .root)]) [.root] := holds_nil.acquire rfl
      have hloop := holds_visited is nodup effect hroot
        fun x _ => about_acquire_ne (fun hne => Resource.noConfusion hne) _
      have hleft := Holds.release hloop
      have hall := hleft.releaseAll.settled_all r
      rw [books_append, books_append, books_releaseEvents]
      exact hall
    · intro s' hs k hk hne
      obtain rfl := Option.some.inj (keyset.symm.trans hs)
      rw [filled] at hk
      obtain ⟨x, hx, hout, rfl⟩ := mem_keptOf.mp hk
      have heffect := effect x hx
      rw [show (out x == .keep) = true by rw [hout]; rfl] at heffect
      cases heffect with
      | pkey _ _ secret => exact absurd secret hne
      | secret _ _ hmac secretOf held =>
        refine ⟨x.2, secretOf, ?_, ?_⟩
        · rw [events, List.mem_append, List.mem_cons]
          exact .inl (.inr (List.mem_flatMap.mpr ⟨x, hx, held⟩))
        · rw [events_afterwards n true keyset, if_pos (.inr rfl), filled]
          refine List.mem_flatMap.mpr ⟨val x, hk, List.mem_append_right _ ?_⟩
          simp [secretEvents, secretOf, hmac, List.length_pos_iff.mpr hne]

/-! ## 3. The two documents -/

section Loop

variable {ι : Type} {clean : Slot PKey → Prop} {full : Nat → Bool}
  {step : ι → Slot PKey → Traced Event (Outcome × Slot PKey)} {out : ι → Outcome}
  {val : ι → Slot PKey} {evs : ι → List Event}

/-- The loop of a parser and its end, with the root at hand. -/
def looped (full : Nat → Bool) (step : ι → Slot PKey → Traced Event (Outcome × Slot PKey))
    (is : List ι) (n : Nat) : Traced Event (Parsed PKey) := do
  acquire .root
  finish (← fillTraced full step is (.blank n .zero))

/-- The keyset it registers, and what happened. -/
theorem looped_visited (hr : Tracked clean step out val evs) (hb : clean .zero) {is : List ι}
    {n : Nat} (hle : is.length ≤ n) (hf : ∀ m < n, full m = false) :
    ∃ s, (looped full step is n).val.keyset = some s ∧
      s.filled = keptOf out val (visited out is) ∧
      (looped full step is n).events = .ledger (.acquire .root) ::
        (visited out is).flatMap evs ++ [.ledger (.release .root)] := by
  have hfull : ∀ m < (Slots.blank n (.zero : Slot PKey)).cells.length, full m = false := by
    simpa [Slots.blank] using hf
  obtain ⟨s, hend, hfilled, hevents⟩ := fillTraced_visited hr is _ (ready_blank hb hle) hfull
  rw [Slots.filled_blank, List.nil_append] at hfilled
  have hfinish : (finish (fillTraced full step is (.blank n .zero)).val).val.keyset = some s ∧
      (finish (fillTraced full step is (.blank n .zero)).val).events =
        [.ledger (.release .root)] := by
    rcases hend with hend | hend <;> rw [hend] <;> exact ⟨rfl, rfl⟩
  refine ⟨s, hfinish.1, hfilled, ?_⟩
  rw [looped, events_bind, events_bind, hevents, hfinish.2]
  rfl

end Loop

/-- The numbers of the entries differ. -/
theorem nodup_zipIdx {ι : Type} (is : List ι) : (is.zipIdx.map Prod.snd).Nodup := by
  rw [List.zipIdx_map_snd]
  exact List.nodup_range'

/-- The entries of a JWKS, by what they do in a zeroed slot. -/
def jwksSlot (E : Env PKey) (L : Leftovers) (F : ParseFaults) (entry : Json × Nat) : Slot PKey :=
  (jwksStepLogged E L F entry .zero).val.2

def jwksEvents (E : Env PKey) (L : Leftovers) (F : ParseFaults) (entry : Json × Nat) :
    List Event :=
  (jwksStepLogged E L F entry (.zero : Slot PKey)).events

/-- What an entry decides is what it decides without its events. -/
theorem outcome_jwksStep (entry : Json × Nat) (slot : Slot PKey) :
    (jwksStepLogged E L F entry slot).val.1 = jwksOut E F entry := by
  have h := congrArg Prod.fst (val_jwksStepLogged (E := E) (L := L) F entry slot)
  exact h.trans (jwksStep_slot entry slot.key .zero).1

/-- The slot is zeroed before anything is done in it. -/
theorem jwksStep_tracked (E : Env PKey) (L : Leftovers) (F : ParseFaults) :
    Tracked (fun _ => True) (jwksStepLogged E L F) (jwksOut E F) (jwksSlot E L F)
      (jwksEvents E L F) where
  outcome i k _ := outcome_jwksStep i k
  kept i k _ h := by
    have hkeep := (outcome_jwksStep (L := L) i k).trans h
    unfold jwksSlot
    unfold jwksStepLogged at hkeep ⊢
    split at hkeep
    · exact Outcome.noConfusion hkeep
    next hobj =>
      rw [if_neg hobj, if_neg hobj]
      rfl
  skipped _ _ _ _ := trivial
  events i k _ := by
    unfold jwksEvents jwksStepLogged
    split
    · rfl
    · rfl

theorem effect_jwks (entry : Json × Nat) :
    Effect E.haveHmac entry.2 (jwksOut E F entry == .keep) (jwksSlot E L F entry)
      (jwksEvents E L F entry) := by
  rw [← outcome_jwksStep (L := L) entry .zero]
  exact effect_jwksStep entry .zero

/-- The members of a keyval document, by what they do in a zeroed slot. -/
def keyvalSlot (E : Env PKey) (F : ParseFaults) (entry : (Bytes × Json) × Nat) : Slot PKey :=
  (keyvalStepLogged E F entry .zero).val.2

def keyvalEvents (E : Env PKey) (F : ParseFaults) (entry : (Bytes × Json) × Nat) : List Event :=
  (keyvalStepLogged E F entry (.zero : Slot PKey)).events

/-- A member that is skipped leaves its slot as it was. -/
theorem keyvalStepLogged_skip {entry : (Bytes × Json) × Nat} {slot : Slot PKey}
    (h : (keyvalStepLogged E F entry slot).val.1 = .skip) :
    (keyvalStepLogged E F entry slot).val.2 = slot := by
  revert h
  unfold keyvalStepLogged
  dsimp only
  split
  · exact fun _ => rfl
  cases entry.1.2.stringOf with
  | none => exact fun _ => rfl
  | some val =>
    dsimp only
    split
    · exact fun _ => rfl
    cases loadPemPubkey E (F.entry entry.2 .bio) val with
    | none => exact fun _ => rfl
    | some pkey =>
      dsimp only
      rw [val_bind]
      cases keyvalCrv E.ossl pkey slot.key with
      | none => exact fun _ => rfl
      | some k =>
        dsimp only
        cases dupStrToPool (F.entry entry.2 .dupKid) entry.1.1 with
        | none => exact fun h => Outcome.noConfusion h
        | some kid => exact fun h => Outcome.noConfusion h

theorem outcome_keyvalStep (entry : (Bytes × Json) × Nat) :
    (keyvalStepLogged E F entry (.zero : Slot PKey)).val.1 = keyvalOut E F entry :=
  congrArg Prod.fst (val_keyvalStepLogged (E := E) F entry .zero)

/-- A skipped slot is still zeroed when the next member gets it. -/
theorem keyvalStep_tracked (E : Env PKey) (F : ParseFaults) :
    Tracked (fun k => k = .zero) (keyvalStepLogged E F) (keyvalOut E F) (keyvalSlot E F)
      (keyvalEvents E F) where
  outcome i k hk := by rw [hk, outcome_keyvalStep]
  kept i k hk _ := by rw [hk, keyvalSlot]
  skipped i k hk h := by
    subst hk
    exact keyvalStepLogged_skip ((outcome_keyvalStep i).trans h)
  events i k hk := by rw [hk, keyvalEvents]

theorem effect_keyval (entry : (Bytes × Json) × Nat) :
    Effect E.haveHmac entry.2 (keyvalOut E F entry == .keep) (keyvalSlot E F entry)
      (keyvalEvents E F entry) := by
  rw [← outcome_keyvalStep entry]
  exact effect_keyvalStep entry

/-- A document that is given up before there is a keyset. -/
def gaveUp : Traced Event (Parsed PKey) := do
  acquire .root
  leave .nothing

/-- A parse of a JWKS: it ends before its loop, or it runs its loop over the entries of an
admissible document. -/
theorem jwksParseLogged_cases (E : Env PKey) (L : Leftovers) (F : ParseFaults)
    (doc : Option Bytes) (pool : Option Pool) :
    jwksParseLogged E L F doc pool = pure .nothing ∨
    jwksParseLogged E L F doc pool = gaveUp ∨
    ∃ d entries, doc = some d ∧ pool.isSome = true ∧ KeysArray E d entries ∧ F.root = false ∧
      F.alloc = false ∧ jwksParseLogged E L F doc pool =
        looped (fun _ => false) (jwksStepLogged E L F) entries.zipIdx (jwksCapacity entries) := by
  unfold jwksParseLogged
  cases pool with
  | none => exact .inl rfl
  | some pool =>
  cases doc with
  | none => exact .inl rfl
  | some doc =>
  dsimp only
  split
  · exact .inl rfl
  next hsize =>
  cases hroot : (if F.root then none else E.json.parseUntrusted doc) with
  | none => exact .inl rfl
  | some root =>
    obtain ⟨hfroot, hparse⟩ := Option.ite_none_left_eq_some.mp hroot
    dsimp only
    split
    · exact .inr (.inl rfl)
    next hobj =>
    cases hkeys : root.objectGet (ascii "keys") with
    | none => exact .inr (.inl rfl)
    | some node =>
      cases node with
      | array keys =>
        dsimp only
        split
        · exact .inr (.inl rfl)
        next hcount =>
        cases halloc : F.alloc with
        | true => exact .inr (.inl rfl)
        | false =>
          refine .inr (.inr ⟨doc, keys, rfl, rfl, ⟨by omega, ⟨root, hparse, by simpa using hobj,
            hkeys⟩, Nat.le_of_not_lt hcount⟩, by simpa using hfroot, rfl, ?_⟩)
          rfl
      | _ => exact .inr (.inl rfl)

/-- On an admissible document, parser and allocator not failing, it runs its loop. -/
theorem jwksParseLogged_eq_looped (hroot : F.root = false) (halloc : F.alloc = false)
    {doc : Bytes} {entries : List Json} (hd : KeysArray E doc entries) (pool : Pool) :
    jwksParseLogged E L F (some doc) (some pool) =
      looped (fun _ => false) (jwksStepLogged E L F) entries.zipIdx (jwksCapacity entries) := by
  obtain ⟨root, hp, hobj, hkeys⟩ := hd.parse
  have hsize : ¬ (doc.length = 0 ∨ doc.length > maxJwksSize) := by
    have hle := hd.size
    omega
  simp only [jwksParseLogged, if_neg hsize, hroot, Bool.false_eq_true, if_false, hp, hobj,
    Bool.not_true, hkeys, if_neg (Nat.not_lt.mpr hd.count), jwksAllocLogged, halloc]
  rfl

/-- A parse of a keyval document, likewise. -/
theorem keyvalParseLogged_cases (E : Env PKey) (F : ParseFaults) (doc : Option Bytes)
    (pool : Option Pool) :
    keyvalParseLogged E F doc pool = pure .nothing ∨
    keyvalParseLogged E F doc pool = gaveUp ∨
    ∃ members : List (Bytes × Json), members.length ≤ maxJwksKeys ∧
      keyvalParseLogged E F doc pool = looped (fun count => decide (count ≥ maxJwksKeys))
        (keyvalStepLogged E F) members.zipIdx members.length := by
  unfold keyvalParseLogged
  cases pool with
  | none => exact .inl rfl
  | some pool =>
  cases doc with
  | none => exact .inl rfl
  | some doc =>
  dsimp only
  split
  · exact .inl rfl
  cases (if F.root then none else E.json.parseUntrusted doc) with
  | none => exact .inl rfl
  | some root =>
    cases root with
    | object members =>
      dsimp only
      split
      · exact .inr (.inl rfl)
      split
      · exact .inr (.inl rfl)
      next hcount =>
      cases halloc : F.alloc with
      | true => exact .inr (.inl rfl)
      | false => exact .inr (.inr ⟨members, Nat.le_of_not_lt hcount, rfl⟩)
    | _ => exact .inr (.inl rfl)

/-- A loop over numbered inputs goes as `Goes` says. -/
theorem goes_looped {ι : Type} {clean : Slot PKey → Prop} {full : Nat → Bool}
    {step : ι × Nat → Slot PKey → Traced Event (Outcome × Slot PKey)} {out : ι × Nat → Outcome}
    {val : ι × Nat → Slot PKey} {evs : ι × Nat → List Event}
    (hr : Tracked clean step out val evs) (hb : clean .zero)
    (heffect : ∀ x, Effect haveHmac x.2 (out x == .keep) (val x) (evs x)) {is : List ι} {n : Nat}
    (hle : is.zipIdx.length ≤ n) (hf : ∀ m < n, full m = false) :
    Goes haveHmac (looped full step is.zipIdx n) := by
  obtain ⟨s, hkeyset, hfilled, hevents⟩ := looped_visited hr hb hle hf
  have hnodup := (nodup_zipIdx is).sublist ((visited_sublist out is.zipIdx).map Prod.snd)
  exact .loop hkeyset hnodup (fun x _ => heffect x) hfilled hevents

theorem goes_jwksParse (doc : Option Bytes) (pool : Option Pool) :
    Goes E.haveHmac (jwksParseLogged E L F doc pool) := by
  rcases jwksParseLogged_cases E L F doc pool with h | h | ⟨d, entries, -, -, -, -, -, h⟩
  · rw [h]
    exact .nothing rfl rfl
  · rw [h]
    exact .left rfl rfl
  · rw [h]
    exact goes_looped (jwksStep_tracked E L F) trivial effect_jwks (zipIdx_le_capacity entries)
      fun _ _ => rfl

theorem goes_keyvalParse (doc : Option Bytes) (pool : Option Pool) :
    Goes E.haveHmac (keyvalParseLogged E F doc pool) := by
  rcases keyvalParseLogged_cases E F doc pool with h | h | ⟨members, hcount, h⟩
  · rw [h]
    exact .nothing rfl rfl
  · rw [h]
    exact .left rfl rfl
  · rw [h]
    exact goes_looped (keyvalStep_tracked E F) rfl effect_keyval (zipIdx_le_length members)
      fun _ hm => not_full hcount hm

/-- **Every handle is released exactly once.**  For every document, whichever steps of its parse
fail, and however often the keyset is freed before the pool is destroyed: the root and every
handle are settled, and the secret of every counted key is cleansed over its full length.  The
logged parsers parse as the others do. -/
theorem handles_released_once (E : Env PKey) (L : Leftovers) (F : ParseFaults)
    (doc : Option Bytes) (pool : Option Pool) (n : Nat) :
    ((jwksParseLogged E L F doc pool).val.jwks = jwksParse E F doc pool ∧
      Released E.haveHmac n (jwksParseLogged E L F doc pool)) ∧
    ((keyvalParseLogged E F doc pool).val.jwks = keyvalParse E F doc pool ∧
      Released E.haveHmac n (keyvalParseLogged E F doc pool)) :=
  ⟨⟨val_jwksParseLogged F doc pool, released_of_goes (goes_jwksParse doc pool) n⟩,
    ⟨val_keyvalParseLogged F doc pool, released_of_goes (goes_keyvalParse doc pool) n⟩⟩

end NxeJwx

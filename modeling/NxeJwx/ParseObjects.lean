/-
# The objects of a parse

Both parsers with the objects they make, over a whole document: the JSON root, and for each entry
the objects of `EntryObjects.lean`, under the number of the entry.  A slot keeps the handle of its
key, with the objects that the handle owns, and everything else is gone when the next entry is
looked at.  So when a parser returns, the handles of the counted keys are all that is left, on
every path and for either version of OpenSSL, and the cleanup frees them (`parse_objects`).
-/
import NxeJwx.EntryObjects
import NxeJwx.Lib.TracedFill

namespace NxeJwx

open Ledger Objects Traced FillSlots

variable {PKey : Type}

/-! ## 1. The code -/

/-- The names of the objects of a document: the root, or an object that was made for an entry. -/
abbrev ObjectName := Option Nat × Nat

/-- The root of the document. -/
def rootName : ObjectName := (none, 0)

/-- A key slot, and what freeing its handle frees. -/
structure ObjSlot (PKey : Type) where
  key : Key PKey
  nodes : List ObjectName

/-- A zeroed slot. -/
def ObjSlot.zero : ObjSlot PKey := ⟨.zero, []⟩

/-- The slot of an entry, with the handle that the entry leaves in it. -/
def slotOf (i : Nat) (d : Done (Turn PKey)) : ObjSlot PKey :=
  ⟨d.val.2, (nodesOf d.handed).map (Prod.mk (some i))⟩

/-- What was made and freed for an entry, under its number. -/
def entryLog (i : Nat) (d : Done (Turn PKey)) : List (Entry ObjectName) :=
  d.books.log.map (Entry.map (Prod.mk (some i)))

/-- A turn of a loop with its objects. -/
def turnTraced (i : Nat) (d : Done (Turn PKey)) :
    Traced (Entry ObjectName) (Outcome × ObjSlot PKey) :=
  ⟨(d.val.1, slotOf i d), entryLog i d⟩

/-- What the loop of `nxe_jwx_jwks_parse` does on a return code. -/
def outcomeOf : Rc → Outcome
  | .ok => .keep
  | .error => .abort
  | .declined => .skip

/-- The entry of a JWKS in the loop. -/
def jwksEntry (api : OsslApi) (E : Env PKey) (F : ParseFaults) (G : Nat → KeyFaults)
    (entry : Json × Nat) : Done (Turn PKey) :=
  if !entry.1.isObject then ⟨(.skip, .zero), none, .empty⟩
  else
    let d := parseOneKeyObjects api E (F.entry entry.2) (G entry.2) entry.1 .empty
    ⟨(outcomeOf d.val.1, d.val.2), d.handed, d.books⟩

/-- One turn of the loop of `nxe_jwx_jwks_parse`. -/
def jwksStepObjects (api : OsslApi) (E : Env PKey) (F : ParseFaults) (G : Nat → KeyFaults)
    (entry : Json × Nat) (slot : ObjSlot PKey) :
    Traced (Entry ObjectName) (Outcome × ObjSlot PKey) :=
  if !entry.1.isObject then return (.skip, slot)
  else turnTraced entry.2 (jwksEntry api E F G entry)

/-- The member of a keyval document in the loop. -/
def keyvalEntry (api : OsslApi) (E : Env PKey) (F : ParseFaults) (G : Nat → KeyFaults)
    (slot : Key PKey) (entry : (Bytes × Json) × Nat) : Done (Turn PKey) :=
  keyvalMemberObjects api E (F.entry entry.2) (G entry.2) entry.1.1 entry.1.2 slot .empty

/-- One turn of the loop of `nxe_jwx_jwks_parse_keyval`. -/
def keyvalStepObjects (api : OsslApi) (E : Env PKey) (F : ParseFaults) (G : Nat → KeyFaults)
    (entry : (Bytes × Json) × Nat) (slot : ObjSlot PKey) :
    Traced (Entry ObjectName) (Outcome × ObjSlot PKey) :=
  turnTraced entry.2 (keyvalEntry api E F G slot.key entry)

/-- What parsing leaves: the keyset that is registered with the pool, if it got that far, and
whether the call returned it. -/
structure ParsedObjects (PKey : Type) where
  keyset : Option (Slots (ObjSlot PKey))
  returned : Bool

/-- The call failed before it allocated a keyset. -/
def ParsedObjects.nothing : ParsedObjects PKey := ⟨none, false⟩

/-- The keyset as it is returned. -/
def ParsedObjects.jwks (p : ParsedObjects PKey) : Option (Jwks PKey) :=
  if p.returned then p.keyset.map fun s => ⟨s.cells.map ObjSlot.key, s.count⟩ else none

/-- What `nxe_jwx_jwks_cleanup` frees: the handles of the counted keys. -/
def ParsedObjects.handles (p : ParsedObjects PKey) : List ObjectName :=
  p.keyset.elim [] fun s => s.filled.flatMap ObjSlot.nodes

/-- Leave with the root released. -/
def leaveObjects (p : ParsedObjects PKey) : Traced (Entry ObjectName) (ParsedObjects PKey) := do
  emit (.release rootName)
  return p

/-- The end of either parser, after its loop. -/
def finishObjects (run : Run (ObjSlot PKey)) :
    Traced (Entry ObjectName) (ParsedObjects PKey) :=
  match run with
  | .done s => leaveObjects ⟨some s, decide (s.count ≠ 0)⟩
  | .aborted s => leaveObjects ⟨some s, false⟩
  | .overrun => return .nothing

/-- `nxe_jwx_jwks_alloc`. -/
def jwksAllocObjects (fault : Bool) (capacity : Nat) : Option (Slots (ObjSlot PKey)) :=
  if fault then none else some (.blank capacity .zero)

/-- `nxe_jwx_jwks_parse`. -/
def jwksParseObjects (api : OsslApi) (E : Env PKey) (F : ParseFaults) (G : Nat → KeyFaults)
    (jwksJson : Option Bytes) (pool : Option Pool) :
    Traced (Entry ObjectName) (ParsedObjects PKey) :=
  match pool, jwksJson with
  | none, _ => return .nothing
  | some _, none => return .nothing
  | some _, some doc =>
    if doc.length = 0 ∨ doc.length > maxJwksSize then return .nothing
    else
      match (if F.root then none else E.json.parseUntrusted doc) with
      | none => return .nothing
      | some root => do
        emit (.acquire rootName)
        if !root.isObject then leaveObjects .nothing
        else
          match root.objectGet (ascii "keys") with
          | some (.array keys) =>
            if keys.length > maxJwksKeys then leaveObjects .nothing
            else
              match jwksAllocObjects F.alloc (if keys.length ≠ 0 then keys.length else 1) with
              | none => leaveObjects .nothing
              | some slots => do
                finishObjects
                  (← fillTraced (fun _ => false) (jwksStepObjects api E F G) keys.zipIdx slots)
          | _ => leaveObjects .nothing

/-- `nxe_jwx_jwks_parse_keyval`. -/
def keyvalParseObjects (api : OsslApi) (E : Env PKey) (F : ParseFaults) (G : Nat → KeyFaults)
    (keyvalJson : Option Bytes) (pool : Option Pool) :
    Traced (Entry ObjectName) (ParsedObjects PKey) :=
  match pool, keyvalJson with
  | none, _ => return .nothing
  | some _, none => return .nothing
  | some _, some doc =>
    if doc.length = 0 ∨ doc.length > maxJwksSize then return .nothing
    else
      match (if F.root then none else E.json.parseUntrusted doc) with
      | none => return .nothing
      | some root => do
        emit (.acquire rootName)
        match root with
        | .object members =>
          if members.length = 0 then leaveObjects .nothing
          else if members.length > maxJwksKeys then leaveObjects .nothing
          else
            match jwksAllocObjects F.alloc members.length with
            | none => leaveObjects .nothing
            | some slots => do
              finishObjects (← fillTraced (fun count => decide (count ≥ maxJwksKeys))
                (keyvalStepObjects api E F G) members.zipIdx slots)
        | _ => leaveObjects .nothing

/-! ## 2. The books of a document -/

section Loop

variable {ι : Type} {d : ι × Nat → Done (Turn PKey)}

/-- A turn holds what it leaves in its slot, and that is nothing unless the slot is kept. -/
structure TurnSound (d : Done (Turn PKey)) : Prop where
  sound : Sound d.books (nodesOf d.handed)
  kept : d.val.1 ≠ .keep → d.handed = none

/-- The handles of the kept slots are what the turns leave. -/
theorem flatMap_nodes (hd : ∀ x, TurnSound (d x)) (is : List (ι × Nat)) :
    (keptOf (fun x => (d x).val.1) (fun x => slotOf x.2 (d x)) is).flatMap ObjSlot.nodes =
      is.flatMap fun x => (nodesOf (d x).handed).map (Prod.mk (some x.2)) := by
  rw [flatMap_keptOf]
  refine List.flatMap_congr fun x _ => ?_
  split
  · rfl
  next hne =>
    rw [(hd x).kept hne]
    rfl

/-- After the loop the root and the handles of the counted slots are held. -/
theorem holds_loop {clean : ObjSlot PKey → Prop} {full : Nat → Bool}
    {step : ι × Nat → ObjSlot PKey → Traced (Entry ObjectName) (Outcome × ObjSlot PKey)}
    (hstep : Tracked clean step (fun x => (d x).val.1) (fun x => slotOf x.2 (d x))
      fun x => entryLog x.2 (d x))
    (hd : ∀ x, TurnSound (d x)) {is : List (ι × Nat)} (hnodup : (is.map Prod.snd).Nodup)
    {s : Slots (ObjSlot PKey)} (hs : Ready clean s is.length) (hempty : s.filled = [])
    (hf : ∀ n < s.cells.length, full n = false) :
    ∃ s', ((fillTraced full step is s).val = .done s' ∨
        (fillTraced full step is s).val = .aborted s') ∧
      Holds ([.acquire rootName] ++ (fillTraced full step is s).events)
        (rootName :: s'.filled.flatMap ObjSlot.nodes) := by
  obtain ⟨s', hend, hfilled, hevents⟩ := fillTraced_visited hstep is s hs hf
  refine ⟨s', hend, ?_⟩
  rw [hfilled, hempty, List.nil_append, flatMap_nodes hd, hevents]
  have hvisited : ((visited (fun x => (d x).val.1) is).map fun x => some x.2).Nodup := by
    have hsub := ((visited_sublist (fun x => (d x).val.1) is).map Prod.snd).nodup hnodup
    have hsome := hsub.map (Option.some_injective Nat)
    rwa [List.map_map] at hsome
  have hroot : Holds [Entry.acquire rootName] [rootName] := holds_nil.acquire rfl
  refine holds_parts _ hvisited (fun x _ => (hd x).sound.holds) hroot fun x _ n => ?_
  have hne : rootName ≠ (some x.2, n) := fun h => absurd (congrArg Prod.fst h) (by simp [rootName])
  exact about_acquire_ne hne _

end Loop

variable {api : OsslApi} {E : Env PKey} {F : ParseFaults} {G : Nat → KeyFaults}

theorem turnSound_jwks (entry : Json × Nat) : TurnSound (jwksEntry api E F G entry) := by
  unfold jwksEntry
  split
  · exact ⟨sound_empty, fun _ => rfl⟩
  · have h := @hands_parseOneKey _ api E (F.entry entry.2) (G entry.2) entry.1
    constructor
    · have hsound := h.keeps .empty [] sound_empty
      rwa [List.append_nil] at hsound
    · intro hne
      refine h.hands .empty [] sound_empty fun hok => hne ?_
      show outcomeOf _ = _
      rw [hok]
      rfl

theorem tracked_jwks : Tracked (fun _ => True) (jwksStepObjects api E F G)
    (fun x => (jwksEntry api E F G x).val.1) (fun x => slotOf x.2 (jwksEntry api E F G x))
    fun x => entryLog x.2 (jwksEntry api E F G x) where
  outcome x k _ := by
    unfold jwksStepObjects jwksEntry
    split <;> rfl
  kept x k _ h := by
    unfold jwksEntry at h
    unfold jwksStepObjects
    split
    next hobj =>
      rw [if_pos hobj] at h
      exact Outcome.noConfusion h
    · rfl
  skipped _ _ _ _ := trivial
  events x k _ := by
    unfold jwksStepObjects jwksEntry
    split <;> rfl

theorem turnSound_keyval (slot : Key PKey) (entry : (Bytes × Json) × Nat) :
    TurnSound (keyvalEntry api E F G slot entry) := by
  have h := @hands_keyvalMember _ api E (F.entry entry.2) (G entry.2) entry.1.1 entry.1.2 slot
  constructor
  · have hsound := h.keeps .empty [] sound_empty
    rwa [List.append_nil] at hsound
  · exact h.hands .empty [] sound_empty

/-- A member that is skipped leaves a zeroed slot zeroed. -/
theorem slotOf_skip {entry : (Bytes × Json) × Nat}
    (h : (keyvalEntry api E F G .zero entry).val.1 = .skip) :
    slotOf entry.2 (keyvalEntry api E F G .zero entry) = .zero := by
  have hnone := (@turnSound_keyval _ api E F G .zero entry).kept (by rw [h]; decide)
  obtain ⟨f', -, hval⟩ := @val_keyvalMember _ api E (F.entry entry.2) (G entry.2) entry.1.1
    entry.1.2 .zero entry.2 .empty
  have hskip := hval ▸ h
  rw [slotOf, hnone, ObjSlot.zero]
  refine congrArg₂ ObjSlot.mk ?_ rfl
  exact (congrArg Prod.snd hval).trans (keyvalStep_skip hskip)

theorem tracked_keyval : Tracked (fun slot => slot = .zero) (keyvalStepObjects api E F G)
    (fun x => (keyvalEntry api E F G .zero x).val.1)
    (fun x => slotOf x.2 (keyvalEntry api E F G .zero x))
    fun x => entryLog x.2 (keyvalEntry api E F G .zero x) where
  outcome x k hk := by
    rw [hk]
    rfl
  kept x k hk _ := by
    rw [hk]
    rfl
  skipped x k hk h := by
    rw [hk]
    exact slotOf_skip h
  events x k hk := by
    rw [hk]
    rfl

/-- Everything else is gone when a parser returns. -/
def HoldsHandles (x : Traced (Entry ObjectName) (ParsedObjects PKey)) : Prop :=
  Holds x.events x.val.handles

theorem holdsHandles_nothing :
    HoldsHandles (return .nothing : Traced (Entry ObjectName) (ParsedObjects PKey)) := holds_nil

/-- Leaving before the loop. -/
theorem holdsHandles_left :
    HoldsHandles (do emit (.acquire rootName); leaveObjects .nothing :
      Traced (Entry ObjectName) (ParsedObjects PKey)) :=
  holds_nil.bounce rfl

/-- Leaving after the loop. -/
theorem holdsHandles_finish {x : Traced (Entry ObjectName) (Run (ObjSlot PKey))}
    {s : Slots (ObjSlot PKey)} (hend : x.val = .done s ∨ x.val = .aborted s)
    (h : Holds ([.acquire rootName] ++ x.events)
      (rootName :: s.filled.flatMap ObjSlot.nodes)) :
    HoldsHandles (do emit (.acquire rootName); finishObjects (← x)) := by
  have hleft := h.release
  rw [List.append_assoc] at hleft
  unfold HoldsHandles
  rw [events_bind, events_bind, val_bind, val_bind]
  rcases hend with hend | hend
  · rw [hend]
    exact hleft
  · rw [hend]
    exact hleft

theorem nodup_positions {α : Type} (l : List α) : (l.zipIdx.map Prod.snd).Nodup := by
  rw [List.zipIdx_map_snd]
  exact List.nodup_range'

theorem holdsHandles_jwksParse (doc : Option Bytes) (pool : Option Pool) :
    HoldsHandles (jwksParseObjects api E F G doc pool) := by
  unfold jwksParseObjects
  match pool, doc with
  | none, _ => exact holdsHandles_nothing
  | some _, none => exact holdsHandles_nothing
  | some _, some doc =>
    dsimp only
    split
    · exact holdsHandles_nothing
    cases (if F.root then none else E.json.parseUntrusted doc) with
    | none => exact holdsHandles_nothing
    | some root =>
      dsimp only
      split
      · exact holdsHandles_left
      split
      next keys _ =>
        split
        · exact holdsHandles_left
        unfold jwksAllocObjects
        cases F.alloc with
        | true => exact holdsHandles_left
        | false =>
          have hroom : keys.zipIdx.length ≤ if keys.length ≠ 0 then keys.length else 1 := by
            rw [List.length_zipIdx]
            split <;> omega
          obtain ⟨s', hend, hholds⟩ := holds_loop (@tracked_jwks _ api E F G) turnSound_jwks
            (nodup_positions keys) (ready_blank trivial hroom) (Slots.filled_blank _ _)
            fun _ _ => rfl
          exact holdsHandles_finish hend hholds
      · exact holdsHandles_left

theorem holdsHandles_keyvalParse (doc : Option Bytes) (pool : Option Pool) :
    HoldsHandles (keyvalParseObjects api E F G doc pool) := by
  unfold keyvalParseObjects
  match pool, doc with
  | none, _ => exact holdsHandles_nothing
  | some _, none => exact holdsHandles_nothing
  | some _, some doc =>
    dsimp only
    split
    · exact holdsHandles_nothing
    cases (if F.root then none else E.json.parseUntrusted doc) with
    | none => exact holdsHandles_nothing
    | some root =>
      dsimp only
      split
      next members =>
        split
        · exact holdsHandles_left
        split
        · exact holdsHandles_left
        next hmax =>
        unfold jwksAllocObjects
        cases F.alloc with
        | true => exact holdsHandles_left
        | false =>
          have hroom : members.zipIdx.length ≤ members.length := by rw [List.length_zipIdx]
          have hfull : ∀ n < (Slots.blank members.length (.zero : ObjSlot PKey)).cells.length,
              decide (n ≥ maxJwksKeys) = false := by
            intro n hn
            have hlen : n < members.length := by simpa [Slots.blank] using hn
            exact decide_eq_false (by omega)
          obtain ⟨s', hend, hholds⟩ := holds_loop (@tracked_keyval _ api E F G)
            (turnSound_keyval .zero) (nodup_positions members) (ready_blank rfl hroom)
            (Slots.filled_blank _ _) hfull
          exact holdsHandles_finish hend hholds
      · exact holdsHandles_left

/-! ## 3. The answers -/

/-- `F'` is `F` with the steps that stand for objects replaced in each entry. -/
structure LowersAll (G : Nat → KeyFaults) (F F' : ParseFaults) : Prop where
  root : F'.root = F.root
  alloc : F'.alloc = F.alloc
  entry : ∀ i, Lowers (G i) (F.entry i) (F'.entry i)

/-- Faults that are good for each entry are found for all entries. -/
theorem exists_lowersAll {α : Type} (l : List α) {Good : α → Nat → EntryFaults → Prop}
    (h : ∀ a i, ∃ f', Lowers (G i) (F.entry i) f' ∧ Good a i f') :
    ∃ F', LowersAll G F F' ∧ ∀ x ∈ l.zipIdx, Good x.1 x.2 (F'.entry x.2) := by
  have hall : ∀ i, ∃ f', Lowers (G i) (F.entry i) f' ∧ ∀ a, l[i]? = some a → Good a i f' := by
    intro i
    cases hi : l[i]? with
    | none =>
      refine ⟨lower (F.entry i) false false false false, ⟨_, _, _, _, rfl, ?_⟩, ?_⟩
      · exact fun h => Bool.noConfusion h
      · exact fun a ha => absurd ha (by simp)
    | some a =>
      obtain ⟨f', hf', hgood⟩ := h a i
      exact ⟨f', hf', fun a' ha' => Option.some.inj ha' ▸ hgood⟩
  choose entry hlowers hgood using hall
  refine ⟨⟨F.root, F.alloc, entry⟩, ⟨rfl, rfl, hlowers⟩, ?_⟩
  rintro ⟨a, i⟩ hx
  exact hgood i a (List.mk_mem_zipIdx_iff_getElem?.mp hx)

theorem val_jwksStepObjects (jwk : Json) (i : Nat) :
    ∃ f', Lowers (G i) (F.entry i) f' ∧ ∀ slot : ObjSlot PKey,
      ((jwksStepObjects api E F G (jwk, i) slot).val.1,
        (jwksStepObjects api E F G (jwk, i) slot).val.2.key) =
      jwksStep E ⟨false, false, fun _ => f'⟩ (jwk, i) slot.key := by
  obtain ⟨f', hlowers, hval⟩ := @val_parseOneKey _ api E (G i) (F.entry i) jwk .zero .empty
  refine ⟨f', hlowers, fun slot => ?_⟩
  unfold jwksStepObjects jwksStep jwksEntry
  split
  · rfl
  · show (outcomeOf (parseOneKeyObjects api E (F.entry i) (G i) jwk .empty).val.1,
      (parseOneKeyObjects api E (F.entry i) (G i) jwk .empty).val.2) = _
    -- the slot is zeroed first, whatever it holds
    rw [hval, show parseOneKey E f' slot.key jwk = parseOneKey E f' .zero jwk from rfl]
    cases parseOneKey E f' .zero jwk with
    | mk rc k => cases rc <;> rfl

/-- The keyset of a parse is the one of its loop over keys. -/
theorem jwks_finishObjects (run : Run (ObjSlot PKey)) :
    (finishObjects run).val.jwks = keysetOfRun (run.map ObjSlot.key) := by
  cases run with
  | done s =>
    simp only [finishObjects, leaveObjects, val_bind, val_pure, ParsedObjects.jwks, Run.map,
      keysetOfRun, Slots.count_map, decide_eq_true_eq, ne_eq, ite_not, Option.map_some]
    rfl
  | aborted s | overrun => rfl

theorem map_jwksAllocObjects (fault : Bool) (capacity : Nat) :
    (jwksAllocObjects fault capacity : Option (Slots (ObjSlot PKey))).map (Slots.map ObjSlot.key) =
      jwksAlloc fault capacity := by
  cases fault with
  | true => rfl
  | false =>
    simp only [jwksAllocObjects, jwksAlloc, Bool.false_eq_true, if_false, Option.map_some,
      Slots.map_blank]
    rfl

/-- The keyset of a loop, by the keys of its slots. -/
theorem jwks_loopObjects {ι : Type} (full : Nat → Bool)
    {step : ι → ObjSlot PKey → Traced (Entry ObjectName) (Outcome × ObjSlot PKey)}
    {step' : ι → Key PKey → Outcome × Key PKey} {clean : ObjSlot PKey → Prop} (is : List ι)
    (h : ∀ x ∈ is, ∀ k, clean k → ((step x k).val.1, (step x k).val.2.key) = step' x k.key)
    (hskip : ∀ x ∈ is, ∀ k, clean k → (step x k).val.1 = .skip → clean (step x k).val.2)
    (s : Slots (ObjSlot PKey)) (hs : s.Free clean) :
    (finishObjects (fillTraced full step is s).val).val.jwks =
      keysetOfRun (fill full step' is (s.map ObjSlot.key)) := by
  rw [jwks_finishObjects, val_fillTraced_free full is h hskip s hs]

/-- The slots of a new keyset are zeroed. -/
theorem free_jwksAllocObjects {fault : Bool} {capacity : Nat} {s : Slots (ObjSlot PKey)}
    (h : jwksAllocObjects fault capacity = some s) : s.Free fun slot => slot = .zero := by
  cases fault with
  | true => exact absurd h (by simp [jwksAllocObjects])
  | false =>
    obtain rfl := Option.some.inj h
    intro slot hslot
    exact List.eq_of_mem_replicate hslot

/-- The entries of a JWKS. -/
def documentKeys (E : Env PKey) (doc : Option Bytes) : List Json :=
  match (doc.bind E.json.parseUntrusted).bind fun root => root.objectGet (ascii "keys") with
  | some (.array keys) => keys
  | _ => []

/-- The members of a keyval document. -/
def documentMembers (E : Env PKey) (doc : Option Bytes) : List (Bytes × Json) :=
  match doc.bind E.json.parseUntrusted with
  | some (.object members) => members
  | _ => []

/-- A parse of a JWKS answers as `jwksParse` does. -/
theorem val_jwksParseObjects (doc : Option Bytes) (pool : Option Pool) :
    ∃ F', LowersAll G F F' ∧
      (jwksParseObjects api E F G doc pool).val.jwks = jwksParse E F' doc pool := by
  obtain ⟨F', hF', hstep⟩ := exists_lowersAll (documentKeys E doc) fun jwk i =>
    @val_jwksStepObjects _ api E F G jwk i
  refine ⟨F', hF', ?_⟩
  unfold jwksParseObjects jwksParse
  rw [hF'.root, hF'.alloc]
  match pool, doc with
  | none, _ => rfl
  | some _, none => rfl
  | some _, some doc =>
    dsimp only
    split
    · rfl
    cases F.root with
    | true => rfl
    | false =>
      cases hroot : E.json.parseUntrusted doc with
      | none => rfl
      | some root =>
        simp only [Bool.false_eq_true, if_false, val_bind]
        split
        · rfl
        cases hkeys : root.objectGet (ascii "keys") with
        | none => rfl
        | some node =>
          cases node with
          | array keys =>
            have hdoc : documentKeys E (some doc) = keys := by
              simp only [documentKeys, Option.bind_some, hroot, hkeys]
            rw [hdoc] at hstep
            dsimp only
            split
            · rfl
            rw [← map_jwksAllocObjects]
            cases (jwksAllocObjects F.alloc (if keys.length ≠ 0 then keys.length else 1) :
                Option (Slots (ObjSlot PKey))) with
            | none => rfl
            | some slots =>
              exact jwks_loopObjects (fun _ => false) _ (fun x hx k _ => hstep x hx k)
                (fun _ _ _ _ _ => trivial) slots fun _ _ => trivial
          | _ => rfl

/-- A member answers as `keyvalStep` does in a zeroed slot. -/
theorem val_keyvalStepObjects (member : Bytes × Json) (i : Nat) :
    ∃ f', Lowers (G i) (F.entry i) f' ∧
      ((keyvalStepObjects api E F G (member, i) .zero).val.1,
        (keyvalStepObjects api E F G (member, i) .zero).val.2.key) =
      keyvalStep E ⟨false, false, fun _ => f'⟩ (member, i) .zero := by
  obtain ⟨f', hlowers, hval⟩ := @val_keyvalMember _ api E (F.entry i) (G i) member.1 member.2
    .zero i .empty
  exact ⟨f', hlowers, hval⟩

/-- A parse of a keyval document answers as `keyvalParse` does. -/
theorem val_keyvalParseObjects (doc : Option Bytes) (pool : Option Pool) :
    ∃ F', LowersAll G F F' ∧
      (keyvalParseObjects api E F G doc pool).val.jwks = keyvalParse E F' doc pool := by
  obtain ⟨F', hF', hstep⟩ := exists_lowersAll (documentMembers E doc) fun member i =>
    @val_keyvalStepObjects _ api E F G member i
  refine ⟨F', hF', ?_⟩
  unfold keyvalParseObjects keyvalParse
  rw [hF'.root, hF'.alloc]
  match pool, doc with
  | none, _ => rfl
  | some _, none => rfl
  | some _, some doc =>
    dsimp only
    split
    · rfl
    cases F.root with
    | true => rfl
    | false =>
      cases hroot : E.json.parseUntrusted doc with
      | none => rfl
      | some root =>
        simp only [Bool.false_eq_true, if_false, val_bind]
        cases root with
        | object members =>
          have hdoc : documentMembers E (some doc) = members := by
            simp only [documentMembers, Option.bind_some, hroot]
          rw [hdoc] at hstep
          dsimp only
          split
          · rfl
          split
          · rfl
          rw [← map_jwksAllocObjects]
          cases hslots : (jwksAllocObjects F.alloc members.length :
              Option (Slots (ObjSlot PKey))) with
          | none => rfl
          | some slots =>
            refine jwks_loopObjects _ _ ?_ ?_ slots
              (free_jwksAllocObjects hslots)
            · intro x hx k hk
              rw [hk]
              exact hstep x hx
            · intro x hx k hk hskip
              rw [hk] at hskip ⊢
              exact slotOf_skip hskip
        | _ => rfl

/-! ## 4. The result -/

/-- What a parse comes to: the handles of the counted keys are the only objects left of all that
were made, the cleanup leaves none, with every object freed once, and the keyset is the one that
the parser answers under some faults of its own, those that the failed objects amount to. -/
structure ParsedWell (G : Nat → KeyFaults) (F : ParseFaults)
    (x : Traced (Entry ObjectName) (ParsedObjects PKey))
    (parse : ParseFaults → Option (Jwks PKey)) : Prop where
  handles : HoldsHandles x
  cleaned : ∀ o, Settled o (x.events ++ x.val.handles.map .release)
  answer : ∃ F', LowersAll G F F' ∧ x.val.jwks = parse F'

theorem HoldsHandles.parsedWell {x : Traced (Entry ObjectName) (ParsedObjects PKey)}
    {parse : ParseFaults → Option (Jwks PKey)} (h : HoldsHandles x)
    (hval : ∃ F', LowersAll G F F' ∧ x.val.jwks = parse F') : ParsedWell G F x parse :=
  ⟨h, (Holds.releaseAll h).settled_all, hval⟩

/-- So it is for both parsers, whatever fails and with either version of OpenSSL. -/
theorem parse_objects (api : OsslApi) (E : Env PKey) (F : ParseFaults) (G : Nat → KeyFaults)
    (doc : Option Bytes) (pool : Option Pool) :
    ParsedWell G F (jwksParseObjects api E F G doc pool)
      (fun F' => jwksParse E F' doc pool) ∧
    ParsedWell G F (keyvalParseObjects api E F G doc pool)
      (fun F' => keyvalParse E F' doc pool) :=
  ⟨(holdsHandles_jwksParse doc pool).parsedWell (val_jwksParseObjects doc pool),
    (holdsHandles_keyvalParse doc pool).parsedWell (val_keyvalParseObjects doc pool)⟩

end NxeJwx

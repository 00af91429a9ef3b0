/-
# Answers over any run

What a verification answers, in any run of calls on any number of pools, is a function of two calls
of the run: the one that decoded its token and the one that parsed its keyset
(`verification_answers`).  It is the answer of `jwsVerify` and its detached siblings on what
`decode` and `jwksParse` or `keyvalParse` give for the arguments of these calls; no other call in
between changes it, and none has freed the keyset.

The invariant is that each object that was returned, and not freed, stands for what its call
computes (`Faithful`).  So a key that is not symmetric still has its handle when a call uses it, and
what a verification gives to OpenSSL is never `NULL` (`handles_used_in_time`).

A keyset that was freed is left with its keys, without handles and secrets (`Key.wiped`).  The
header forbids to use it; `freed_keyset_hmac` says what the code would still do with an HMAC token.
-/
import NxeJwx.PoolCustody

namespace NxeJwx

open FillSlots Traced TryEach Ledger

variable {PKey : Type}

/-! ## 1. What an object stands for -/

/-- A call frees the keyset that call number `n` made. -/
def PoolCall.frees (n : Nat) : PoolCall → Bool
  | .jwksFree (some m) => m == n
  | _ => false

/-- One of the calls does. -/
def freedIn (calls : List PoolCall) (n : Nat) : Bool := calls.any (PoolCall.frees n)

/-- Call number `n` decoded this token. -/
def Decodes (E : Env PKey) (calls : List PoolCall) (n : Nat) (t : Token) : Prop :=
  ∃ left f tokenStr pool, calls[n]? = some (.decode left f tokenStr pool) ∧
    decode E f tokenStr (some ⟨⟩) = some t

/-- Call number `n` parsed this keyset, from either kind of document. -/
def Parses (E : Env PKey) (calls : List PoolCall) (n : Nat) (J : Jwks PKey) : Prop :=
  (∃ L F doc pool, calls[n]? = some (.jwksParse L F doc pool) ∧
    jwksParse E F doc (some ⟨⟩) = some J) ∨
  ∃ F doc pool, calls[n]? = some (.jwksParseKeyval F doc pool) ∧
    keyvalParse E F doc (some ⟨⟩) = some J

/-- The pointers of a slot go with what is in it. -/
structure Linked (k : Slot PKey) : Prop where
  pkey : k.pkeyOf = none → k.key.pkey = none
  secret : k.secretOf = none → k.key.hmacSecret = []

/-- The slots hold what a call computed, and no call freed them. -/
structure Holding (E : Env PKey) (calls : List PoolCall) (n : Nat) (ks : List (Slot PKey)) :
    Prop where
  kept : freedIn calls n = false
  linked : ∀ k ∈ ks, Linked k
  parsed : ∃ J, Parses E calls n J ∧ J.walk = ks.map Slot.key

/-- A returned object stands for what its call computes, a keyset as long as it is not freed. -/
def Denotes (E : Env PKey) (calls : List PoolCall) (c : PoolCleanup PKey) : Prop :=
  match c.data with
  | .token cell => ∃ t, cell.token = some t ∧ Decodes E calls c.call t
  | .keyset s => c.armed = true → Holding E calls c.call s.filled

/-- The invariant. -/
structure Faithful (E : Env PKey) (calls : List PoolCall) (P : Pools PKey) : Prop where
  count : P.calls = calls.length
  freed : ∀ n, freedIn calls n = true → n < P.calls
  named : ∀ c ∈ P.cleanups, c.call < P.calls
  denotes : ∀ c ∈ P.cleanups, c.returned = true → Denotes E calls c

/-! ## 2. What a parse leaves -/

/-- The slots that a parse counts are linked. -/
theorem linked_of_goes {haveHmac : Bool} {x : Traced Event (Parsed PKey)} (h : Goes haveHmac x)
    {s : Slots (Slot PKey)} (hs : x.val.keyset = some s) :
    ∀ k ∈ s.filled, Linked k ∧ (k.key.hmacSecret ≠ [] → haveHmac = true) := by
  cases h with
  | nothing keyset _ => exact absurd (keyset.symm.trans hs) (by simp)
  | left keyset _ => exact absurd (keyset.symm.trans hs) (by simp)
  | @loop ι out val evs is s' keyset nodup effect filled events =>
    obtain rfl := Option.some.inj (keyset.symm.trans hs)
    intro k hk
    rw [filled] at hk
    obtain ⟨x, hx, hout, rfl⟩ := mem_keptOf.mp hk
    have heffect := effect x hx
    rw [show (out x == .keep) = true by rw [hout]; rfl] at heffect
    cases heffect with
    | pkey pkeyOf _ secret =>
      exact ⟨⟨fun hnone => absurd (pkeyOf.symm.trans hnone) (by simp), fun _ => secret⟩,
        fun hne => absurd secret hne⟩
    | secret pkeyOf pkey hmac secretOf =>
      exact ⟨⟨fun _ => pkey, fun hnone => absurd (secretOf.symm.trans hnone) (by simp)⟩,
        fun _ => hmac⟩

/-! ## 3. One call -/

section Step

variable {E : Env PKey} {calls : List PoolCall} {P : Pools PKey}

theorem freedIn_append (c : PoolCall) (n : Nat) :
    freedIn (calls ++ [c]) n = (freedIn calls n || c.frees n) := by
  simp [freedIn]

/-- Later calls change nothing about what a call computed. -/
theorem Decodes.append {n : Nat} {t : Token} (h : Decodes E calls n t) (c : PoolCall) :
    Decodes E (calls ++ [c]) n t := by
  obtain ⟨left, f, tokenStr, pool, hcall, ht⟩ := h
  have hlt := (List.getElem?_eq_some_iff.mp hcall).1
  exact ⟨left, f, tokenStr, pool, by rw [List.getElem?_append_left hlt, hcall], ht⟩

theorem Parses.append {n : Nat} {J : Jwks PKey} (h : Parses E calls n J) (c : PoolCall) :
    Parses E (calls ++ [c]) n J := by
  rcases h with ⟨L, F, doc, pool, hcall, hJ⟩ | ⟨F, doc, pool, hcall, hJ⟩
  · have hlt := (List.getElem?_eq_some_iff.mp hcall).1
    exact .inl ⟨L, F, doc, pool, by rw [List.getElem?_append_left hlt, hcall], hJ⟩
  · have hlt := (List.getElem?_eq_some_iff.mp hcall).1
    exact .inr ⟨F, doc, pool, by rw [List.getElem?_append_left hlt, hcall], hJ⟩

/-- An object goes on standing for the same, unless it is freed. -/
theorem Denotes.append {c : PoolCleanup PKey} (h : Denotes E calls c) {call : PoolCall}
    (hcall : call.frees c.call = false) : Denotes E (calls ++ [call]) c := by
  unfold Denotes at h ⊢
  cases hdata : c.data with
  | token cell =>
    rw [hdata] at h
    obtain ⟨t, ht, hdec⟩ := h
    exact ⟨t, ht, hdec.append call⟩
  | keyset s =>
    rw [hdata] at h
    intro harmed
    obtain ⟨hkept, hlinked, J, hJ, hwalk⟩ := h harmed
    refine ⟨?_, hlinked, J, hJ.append call, hwalk⟩
    rw [freedIn_append, hcall, Bool.or_false]
    exact hkept

/-- A call that frees nothing leaves the objects that stay as they are. -/
theorem faithful_keep (h : Faithful E calls P) {call : PoolCall} (hcall : ∀ n, call.frees n = false)
    {P' : Pools PKey} (hcount : P'.calls = P.calls + 1)
    (hcleanups : ∀ c ∈ P'.cleanups, c ∈ P.cleanups) : Faithful E (calls ++ [call]) P' where
  count := by rw [hcount, h.count, List.length_append, List.length_singleton]
  freed n hn := by
    rw [freedIn_append, hcall, Bool.or_false] at hn
    exact hcount ▸ Nat.lt_succ_of_lt (h.freed n hn)
  named c hc := hcount ▸ Nat.lt_succ_of_lt (h.named c (hcleanups c hc))
  denotes c hc hret := (h.denotes c (hcleanups c hc) hret).append (hcall _)

/-- A call adds an object that stands for what it computes. -/
theorem faithful_add (h : Faithful E calls P) {call : PoolCall} (hcall : ∀ n, call.frees n = false)
    (pool : Option Nat) (data : Option (PoolData PKey)) (returned : Bool)
    (hnew : ∀ p d, data = some d → returned = true →
      Denotes E (calls ++ [call]) (⟨p, P.calls, d, true, returned⟩ : PoolCleanup PKey)) :
    Faithful E (calls ++ [call]) (P.add pool data returned).next := by
  cases pool with
  | none => exact faithful_keep h hcall rfl fun c hc => hc
  | some p =>
  cases data with
  | none => exact faithful_keep h hcall rfl fun c hc => hc
  | some d =>
    have hrest : Faithful E (calls ++ [call]) P.next := faithful_keep h hcall rfl fun c hc => hc
    refine ⟨hrest.count, hrest.freed, ?_, ?_⟩
    · intro c hc
      rcases List.mem_cons.mp hc with rfl | hc
      · exact Nat.lt_succ_self _
      · exact hrest.named c hc
    · intro c hc hret
      rcases List.mem_cons.mp hc with rfl | hc
      · exact hnew p d rfl hret
      · exact hrest.denotes c hc hret

/-- Nothing has freed what the next call makes. -/
theorem freedIn_next (h : Faithful E calls P) {call : PoolCall}
    (hcall : ∀ n, call.frees n = false) : freedIn (calls ++ [call]) P.calls = false := by
  rw [freedIn_append, hcall, Bool.or_false, Bool.eq_false_iff]
  exact fun hn => absurd (h.freed _ hn) (Nat.lt_irrefl _)

/-- The call that is made is the last one. -/
theorem getElem?_next (h : Faithful E calls P) (call : PoolCall) :
    (calls ++ [call])[P.calls]? = some call := by
  rw [h.count, List.getElem?_append_right le_rfl, Nat.sub_self]
  rfl

/-- A decoded token stands for what `decode` gives. -/
theorem faithful_decoded (h : Faithful E calls P) (left : Bytes → Bytes) (f : DecodeFaults)
    (tokenStr : Option Bytes) (pool : Option Nat) (pool' : Option Pool) :
    Faithful E (calls ++ [.decode left f tokenStr pool])
      (P.add pool ((decodeLogged E left f tokenStr pool').val.cell.map .token)
        (decodeLogged E left f tokenStr pool').val.returned).next := by
  refine faithful_add h (fun _ => rfl) pool _ _ ?_
  intro p d hd hret
  obtain ⟨c, t, hc, ht⟩ := complete_decodeLogged f tokenStr pool' hret
  rw [hc] at hd
  obtain rfl := Option.some.inj hd
  refine ⟨t, ht, left, f, tokenStr, pool, getElem?_next h _, ?_⟩
  cases pool' with
  | none => exact Bool.noConfusion hret
  | some pool' =>
    have hval : (decodeLogged E left f tokenStr (some pool')).val.token = _ :=
      val_decodeLogged f tokenStr (some pool')
    rw [Decoding.token, hret, if_pos rfl, hc, Option.bind_some, ht] at hval
    exact hval.symm

/-- A parsed keyset stands for what its parser gives. -/
theorem faithful_parsed (h : Faithful E calls P) {call : PoolCall}
    (hcall : ∀ n, call.frees n = false) (pool : Option Nat) {x : Traced Event (Parsed PKey)}
    (hx : Goes E.haveHmac x)
    (hparses : ∀ J, x.val.jwks = some J → Parses E (calls ++ [call]) P.calls J) :
    Faithful E (calls ++ [call]) (P.parsed pool x).val.1 := by
  refine faithful_add h hcall pool _ _ ?_
  intro p d hd hret
  rw [val_relabel] at hd hret
  obtain ⟨s, hs, rfl⟩ := Option.map_eq_some_iff.mp hd
  intro _
  refine ⟨freedIn_next h hcall, fun k hk => (linked_of_goes hx hs k hk).1,
    ⟨s.cells.map Slot.key, s.count⟩, hparses _ ?_, ?_⟩
  · rw [Parsed.jwks, hret, if_pos rfl, hs]
    rfl
  · rw [Jwks.walk_eq_take]
    exact List.map_take.symm

/-- A keyset that is freed stands for nothing any more. -/
theorem faithful_free (h : Faithful E calls P) {n : Nat} {r : Registered PKey}
    (hr : P.keyset n = some r) :
    Faithful E (calls ++ [.jwksFree (some n)])
      (P.store n (.keyset (jwksFree E.haveHmac r).val.keyset)
        (jwksFree E.haveHmac r).val.armed).next := by
  obtain ⟨c₀, hobject, -⟩ := Pools.keyset_eq_some hr
  obtain ⟨hmem, hcall₀, -⟩ := Pools.object_eq_some hobject
  refine ⟨?_, ?_, ?_, ?_⟩
  · show P.calls + 1 = _
    rw [h.count, List.length_append, List.length_singleton]
  · intro m hm
    rw [freedIn_append, Bool.or_eq_true] at hm
    rcases hm with hm | hm
    · exact Nat.lt_succ_of_lt (h.freed m hm)
    · obtain rfl : n = m := beq_iff_eq.mp hm
      exact Nat.lt_succ_of_lt (hcall₀ ▸ h.named c₀ hmem)
  · intro c hc
    obtain ⟨c', hc', hcall, -⟩ := mem_store hc
    rw [hcall]
    exact Nat.lt_succ_of_lt (h.named c' hc')
  · intro c hc hret
    obtain ⟨c', hc', rfl⟩ := List.mem_map.mp hc
    by_cases hn : c'.call = n
    · rw [if_pos hn]
      exact fun harmed => Bool.noConfusion harmed
    · rw [if_neg hn] at hret ⊢
      refine (h.denotes c' hc' hret).append ?_
      show (n == c'.call) = false
      exact beq_false_of_ne (Ne.symm hn)

/-- **Every call keeps the invariant.** -/
theorem faithful_step (h : Faithful E calls P) {c : PoolCall}
    {x : Traced PoolEvent (Pools PKey × Answer)} (hx : step E P c = some x) :
    Faithful E (calls ++ [c]) x.val.1 := by
  cases c with
  | createPool =>
    obtain rfl := Option.some.inj hx
    exact faithful_keep h (fun _ => rfl) rfl fun c hc => hc
  | destroyPool pool =>
    obtain ⟨_, -, rfl⟩ := Option.map_eq_some_iff.mp hx
    exact faithful_keep h (fun _ => rfl) rfl fun c hc => List.mem_of_mem_filter hc
  | decode left f tokenStr pool =>
    obtain ⟨pool', -, rfl⟩ := Option.map_eq_some_iff.mp hx
    exact faithful_decoded h left f tokenStr pool pool'
  | jwksParse L F jwksJson pool =>
    obtain ⟨pool', -, rfl⟩ := Option.map_eq_some_iff.mp hx
    refine faithful_parsed h (fun _ => rfl) pool (goes_jwksParse jwksJson pool') ?_
    intro J hJ
    rw [val_jwksParseLogged] at hJ
    cases pool' with
    | none => exact absurd hJ (by simp [jwksParse])
    | some pool' => exact .inl ⟨L, F, jwksJson, pool, getElem?_next h _, hJ⟩
  | jwksParseKeyval F keyvalJson pool =>
    obtain ⟨pool', -, rfl⟩ := Option.map_eq_some_iff.mp hx
    refine faithful_parsed h (fun _ => rfl) pool (goes_keyvalParse keyvalJson pool') ?_
    intro J hJ
    rw [val_keyvalParseLogged] at hJ
    cases pool' with
    | none => exact absurd hJ (by simp [keyvalParse])
    | some pool' => exact .inr ⟨F, keyvalJson, pool, getElem?_next h _, hJ⟩
  | jwksFree jwks =>
    cases jwks with
    | none =>
      obtain rfl := Option.some.inj hx
      exact faithful_keep h (fun _ => rfl) rfl fun c hc => hc
    | some n =>
      obtain ⟨r, hr, rfl⟩ := Option.map_eq_some_iff.mp hx
      exact faithful_free h hr
  | jwsVerify token jwks pool =>
    obtain ⟨token', -, hx⟩ := Option.bind_eq_some_iff.mp hx
    obtain ⟨keys, -, hx⟩ := Option.bind_eq_some_iff.mp hx
    obtain ⟨pool', -, hx⟩ := Option.bind_eq_some_iff.mp hx
    obtain rfl := Option.some.inj hx
    exact faithful_keep h (fun _ => rfl) rfl fun c hc => hc
  | jwksVerifyRaw jwks keyid algStr msg sig pool =>
    obtain ⟨keys, -, hx⟩ := Option.bind_eq_some_iff.mp hx
    obtain ⟨pool', -, hx⟩ := Option.bind_eq_some_iff.mp hx
    obtain rfl := Option.some.inj hx
    exact faithful_keep h (fun _ => rfl) rfl fun c hc => hc
  | jwksVerifyRawByKid jwks kid algStr msg sig pool =>
    obtain ⟨keys, -, hx⟩ := Option.bind_eq_some_iff.mp hx
    obtain ⟨pool', -, hx⟩ := Option.bind_eq_some_iff.mp hx
    obtain rfl := Option.some.inj hx
    exact faithful_keep h (fun _ => rfl) rfl fun c hc => hc

end Step

/-! ## 4. The answers -/

section Runs

variable {E : Env PKey} {calls : List PoolCall} {P : Pools PKey} {tr : List PoolEvent}
  {answers : List Answer}

theorem faithful_run (run : PoolRun E calls P tr answers) : Faithful E calls P := by
  induction run with
  | start =>
    exact ⟨rfl, fun n h => absurd h (by simp [freedIn]), fun c h => absurd h List.not_mem_nil,
      fun c h => absurd h List.not_mem_nil⟩
  | call _ step ih => exact faithful_step ih step

/-- A pointer to a token points to what some call decoded. -/
theorem Faithful.token (h : Faithful E calls P) {i : Nat} {t : Token} (ht : P.token i = some t) :
    Decodes E calls i t := by
  unfold Pools.token at ht
  split at ht
  next pool call c armed ret hobject =>
    obtain ⟨hmem, hcall, hret⟩ := Pools.object_eq_some hobject
    obtain ⟨t', ht', hdec⟩ := h.denotes _ hmem hret
    obtain rfl := Option.some.inj (ht'.symm.trans ht)
    exact hcall ▸ hdec
  · exact absurd ht (by simp)

/-- A pointer to a keyset that is not freed points to the slots of what some call parsed. -/
theorem Faithful.live (h : Faithful E calls P) {j : Nat} {r : Registered PKey}
    (hr : P.live j = some r) : Holding E calls j r.keyset.filled := by
  obtain ⟨hkeyset, harmed⟩ := Pools.live_eq_some hr
  obtain ⟨c, hobject, hdata, harmed'⟩ := Pools.keyset_eq_some hkeyset
  obtain ⟨hmem, rfl, hret⟩ := Pools.object_eq_some hobject
  have hden := h.denotes c hmem hret
  unfold Denotes at hden
  rw [hdata] at hden
  exact hden (harmed'.trans harmed)

theorem resolve_some {α : Type} {lookup : Nat → Option α} {n : Nat} {r : Option α}
    (h : resolve lookup (some n) = some r) : ∃ a, lookup n = some a ∧ r = some a := by
  rcases resolve_eq_some h with ⟨hn, -⟩ | ⟨n', a, hn, ha, rfl⟩
  · exact absurd hn (by simp)
  · obtain rfl := Option.some.inj hn
    exact ⟨a, ha, rfl⟩

/-- A pool that a pointer points to is there. -/
theorem pool_of_resolve {p : Nat} {pool : Option Pool} (h : resolve P.pool (some p) = some pool) :
    pool = some ⟨⟩ := by
  obtain ⟨_, -, rfl⟩ := resolve_some h
  rfl

/-- The keys that a verification walks are those of what some call parsed. -/
theorem Faithful.slots (h : Faithful E calls P) {j : Nat} {keys : Option (List (Slot PKey))}
    (hkeys : P.slots (some j) = some keys) : ∃ cs, keys = some cs ∧ Holding E calls j cs := by
  obtain ⟨r, hr, rfl⟩ := Option.map_eq_some_iff.mp hkeys
  obtain ⟨a, ha, rfl⟩ := resolve_some hr
  exact ⟨_, rfl, h.live ha⟩

/-- The verifications with a slot, without their events. -/
theorem val_slotTrial (k : Slot PKey) (alg : Alg) (msg sig : Bytes) :
    (slotTrial E k alg msg sig).val = verifyWithKey E (primitive E) k.key alg msg sig :=
  val_verifyWithKeyTraced ..

theorem val_slotRaw (k : Slot PKey) (algStr : Option Bytes) (msg sig : Bytes) :
    (slotRaw E k algStr msg sig).val = verifyRawWithKey E (primitive E) k.key algStr msg sig :=
  val_verifyRawWithKeyTraced ..

/-- **Answers depend on two calls.**  In any run, a verification of the token of call `i` with the
keyset of call `j` answers what `jwsVerify` answers for the token that call `i` decoded and the
keyset that call `j` parsed, which no call has freed; and so do its detached siblings.  The other
calls of the run, and the pools, are irrelevant. -/
theorem verification_answers (run : PoolRun E calls P tr answers) (i j p : Nat) :
    (∀ x, step E P (.jwsVerify (some i) (some j) (some p)) = some x →
      freedIn calls j = false ∧ ∃ t J, Decodes E calls i t ∧ Parses E calls j J ∧
        x.val.2 = .verified (jwsVerifyRun E (primitive E) (some t) (some J) (some ⟨⟩))) ∧
    (∀ keyid algStr msg sig x,
      step E P (.jwksVerifyRaw (some j) keyid algStr msg sig (some p)) = some x →
      freedIn calls j = false ∧ ∃ J, Parses E calls j J ∧ x.val.2 = .rc
        (jwksVerifyRaw E (primitive E) (some J) keyid algStr msg sig (some ⟨⟩))) ∧
    (∀ kid algStr msg sig x,
      step E P (.jwksVerifyRawByKid (some j) kid algStr msg sig (some p)) = some x →
      freedIn calls j = false ∧ ∃ J, Parses E calls j J ∧ x.val.2 = .rc
        (jwksVerifyRawByKid E (primitive E) (some J) kid algStr msg sig (some ⟨⟩))) := by
  have h := faithful_run run
  refine ⟨?_, ?_, ?_⟩
  · intro x hx
    obtain ⟨token, htoken, hx⟩ := Option.bind_eq_some_iff.mp hx
    obtain ⟨keys, hkeys, hx⟩ := Option.bind_eq_some_iff.mp hx
    obtain ⟨pool, hpool, hx⟩ := Option.bind_eq_some_iff.mp hx
    obtain rfl := Option.some.inj hx
    obtain ⟨t, ht, rfl⟩ := resolve_some htoken
    obtain ⟨cs, rfl, hkept, -, J, hJ, hwalk⟩ := h.slots hkeys
    obtain rfl := pool_of_resolve hpool
    refine ⟨hkept, t, J, h.token ht, hJ, congrArg Answer.verified ?_⟩
    exact val_jwsVerifyTraced val_slotTrial _ hwalk _
  · intro keyid algStr msg sig x hx
    obtain ⟨keys, hkeys, hx⟩ := Option.bind_eq_some_iff.mp hx
    obtain ⟨pool, hpool, hx⟩ := Option.bind_eq_some_iff.mp hx
    obtain rfl := Option.some.inj hx
    obtain ⟨cs, rfl, hkept, -, J, hJ, hwalk⟩ := h.slots hkeys
    obtain rfl := pool_of_resolve hpool
    refine ⟨hkept, J, hJ, congrArg Answer.rc ?_⟩
    exact val_jwksVerifyRawTraced val_slotRaw hwalk _ _ _ _ _
  · intro kid algStr msg sig x hx
    obtain ⟨keys, hkeys, hx⟩ := Option.bind_eq_some_iff.mp hx
    obtain ⟨pool, hpool, hx⟩ := Option.bind_eq_some_iff.mp hx
    obtain rfl := Option.some.inj hx
    obtain ⟨cs, rfl, hkept, -, J, hJ, hwalk⟩ := h.slots hkeys
    obtain rfl := pool_of_resolve hpool
    refine ⟨hkept, J, hJ, congrArg Answer.rc ?_⟩
    exact val_jwksVerifyRawByKidTraced val_slotRaw hwalk _ _ _ _ _

end Runs

/-- The verification of `poolStory`, before its keyset is freed. -/
theorem verification_answers_poolStory :
    ∃ t J, Decodes (edFacts []).env (poolStory.take 4) 3 t ∧
      Parses (edFacts []).env (poolStory.take 4) 2 J ∧
      jwsVerifyRun (edFacts []).env (primitive (edFacts []).env) (some t) (some J) (some ⟨⟩) =
        ⟨.ok, false⟩ := by
  have h : ((perform (edFacts []).env .start (poolStory.take 4)).bind fun y =>
      (step (edFacts []).env y.val.1 (.jwsVerify (some 3) (some 2) (some 1))).map fun x =>
        x.val.2) = some (.verified ⟨.ok, false⟩) := by
    decide +kernel
  obtain ⟨y, hy, h⟩ := Option.bind_eq_some_iff.mp h
  obtain ⟨x, hx, hanswer⟩ := Option.map_eq_some_iff.mp h
  obtain ⟨-, t, J, ht, hJ, heq⟩ := (verification_answers (poolRun_of_perform hy) 3 2 1).1 x hx
  rw [hanswer] at heq
  exact ⟨t, J, ht, hJ, (Answer.verified.inj heq).symm⟩

/-! ## 5. No handle is missing -/

section Handles

variable {E : Env PKey}

/-- The event does not hand `NULL` to OpenSSL. -/
def PoolEvent.HasHandle : PoolEvent → Prop
  | .use _ none => False
  | _ => True

theorem JwkOrigin.loaded {e : Json} {m : Material} {k : Key PKey} (h : JwkOrigin E e m k) :
    Loaded k := by
  have hmade : Loaded (jwkKey E.ossl e m) :=
    KtyOk.loaded ⟨m, h.usable.describes, h.usable.admissible, h.usable.made, rfl⟩
  rw [h.key]
  exact ⟨hmade.known, hmade.oct_pkey, hmade.oct_secret⟩

/-- A key that is not symmetric has its handle. -/
theorem Parses.pkey_ne {calls : List PoolCall} {n : Nat} {J : Jwks PKey} (h : Parses E calls n J)
    {k : Key PKey} (hk : k ∈ J.walk) (hkty : k.kty ≠ .oct) : k.pkey ≠ none := by
  rcases h with ⟨L, F, doc, pool, -, hJ⟩ | ⟨F, doc, pool, -, hJ⟩
  · cases doc with
    | none => exact absurd hJ (by simp [jwksParse])
    | some doc =>
      obtain ⟨_, _, _, -, -, ho⟩ := mem_of_jwksParse hJ hk
      exact ho.loaded.pkey_ne hkty
  · cases doc with
    | none => exact absurd hJ (by simp [keyvalParse])
    | some doc =>
      obtain ⟨_, _, p, -, -, ho⟩ := mem_of_keyvalParse hJ hk
      rw [ho.handle]
      exact Option.some_ne_none p

/-- So has its slot, as long as the keyset is not freed. -/
theorem Holding.pkeyOf_ne {calls : List PoolCall} {n : Nat} {ks : List (Slot PKey)}
    (h : Holding E calls n ks) {k : Slot PKey} (hk : k ∈ ks) (hkty : k.key.kty ≠ .oct) :
    k.pkeyOf ≠ none := by
  intro hnone
  obtain ⟨J, hJ, hwalk⟩ := h.parsed
  have hmem : k.key ∈ J.walk := by
    rw [hwalk]
    exact List.mem_map_of_mem hk
  exact hJ.pkey_ne hmem hkty ((h.linked k hk).pkey hnone)

variable {calls : List PoolCall} {P : Pools PKey}

theorem hasHandle_runHandlers (haveHmac : Bool) (cs : List (PoolCleanup PKey)) :
    Only PoolEvent.HasHandle (runHandlers haveHmac cs) := by
  induction cs with
  | nil => exact .pure _
  | cons c cs ih =>
    refine .bind (.ite (fun _ => ?_) fun _ => .pure _) ih
    cases c.data with
    | token t => exact .bind (.relabel fun _ _ => trivial) (.pure _)
    | keyset s => exact .bind (.relabel fun _ _ => trivial) (.pure _)

/-- The handles that a verification uses. -/
theorem hasHandle_usesOf (h : Faithful E calls P) {jwks : Option Nat}
    {keys : Option (List (Slot PKey))} (hkeys : P.slots jwks = some keys) {β : Type}
    {x : Traced (Option Nat) β} (hnone : keys = none → x.events = [])
    (hsome : ∀ cs, keys = some cs → (∀ k ∈ cs, k.key.kty ≠ .oct → k.pkeyOf ≠ none) →
      Only (fun i => i ≠ none) x) : Only PoolEvent.HasHandle (usesOf jwks x) := by
  refine .relabel ?_
  intro i hi
  cases keys with
  | none =>
    rw [hnone rfl] at hi
    exact absurd hi List.not_mem_nil
  | some cs =>
    obtain ⟨n, r, rfl, hr, rfl⟩ := slots_eq_some hkeys
    have hne := hsome _ rfl (fun k hk => (h.live hr).pkeyOf_ne hk) i hi
    cases i with
    | none => exact absurd rfl hne
    | some i => trivial

/-- **No call hands `NULL` to OpenSSL.** -/
theorem hasHandle_step (h : Faithful E calls P) {c : PoolCall}
    {x : Traced PoolEvent (Pools PKey × Answer)} (hx : step E P c = some x) :
    Only PoolEvent.HasHandle x := by
  cases c with
  | createPool =>
    obtain rfl := Option.some.inj hx
    exact .pure _
  | destroyPool pool =>
    obtain ⟨_, -, rfl⟩ := Option.map_eq_some_iff.mp hx
    exact .bind (hasHandle_runHandlers _ _) (.pure _)
  | decode left f tokenStr pool =>
    obtain ⟨pool', -, rfl⟩ := Option.map_eq_some_iff.mp hx
    exact .bind (.relabel fun _ _ => trivial) (.pure _)
  | jwksParse L F jwksJson pool =>
    obtain ⟨pool', -, rfl⟩ := Option.map_eq_some_iff.mp hx
    exact .bind (.relabel fun _ _ => trivial) (.pure _)
  | jwksParseKeyval F keyvalJson pool =>
    obtain ⟨pool', -, rfl⟩ := Option.map_eq_some_iff.mp hx
    exact .bind (.relabel fun _ _ => trivial) (.pure _)
  | jwksFree jwks =>
    cases jwks with
    | none =>
      obtain rfl := Option.some.inj hx
      exact .pure _
    | some n =>
      obtain ⟨r, -, rfl⟩ := Option.map_eq_some_iff.mp hx
      exact .bind (.relabel fun _ _ => trivial) (.pure _)
  | jwsVerify token jwks pool =>
    obtain ⟨token', -, hx⟩ := Option.bind_eq_some_iff.mp hx
    obtain ⟨keys, hkeys, hx⟩ := Option.bind_eq_some_iff.mp hx
    obtain ⟨pool', -, hx⟩ := Option.bind_eq_some_iff.mp hx
    obtain rfl := Option.some.inj hx
    refine .bind (hasHandle_usesOf h hkeys ?_ ?_) (.pure _)
    · rintro rfl
      unfold jwsVerifyTraced
      cases token' <;> rfl
    · rintro cs rfl hcs
      exact only_jwsVerifyTraced (fun k hk => only_slotTrial (hcs k hk)) token' pool'
  | jwksVerifyRaw jwks keyid algStr msg sig pool =>
    obtain ⟨keys, hkeys, hx⟩ := Option.bind_eq_some_iff.mp hx
    obtain ⟨pool', -, hx⟩ := Option.bind_eq_some_iff.mp hx
    obtain rfl := Option.some.inj hx
    refine .bind (hasHandle_usesOf h hkeys ?_ ?_) (.pure _)
    · rintro rfl
      rfl
    · rintro cs rfl hcs
      exact only_jwksVerifyRawTraced (fun k hk => only_slotRaw (hcs k hk)) _ _ _ _ _
  | jwksVerifyRawByKid jwks kid algStr msg sig pool =>
    obtain ⟨keys, hkeys, hx⟩ := Option.bind_eq_some_iff.mp hx
    obtain ⟨pool', -, hx⟩ := Option.bind_eq_some_iff.mp hx
    obtain rfl := Option.some.inj hx
    refine .bind (hasHandle_usesOf h hkeys ?_ ?_) (.pure _)
    · rintro rfl
      rfl
    · rintro cs rfl hcs
      exact only_jwksVerifyRawByKidTraced (fun k hk => only_slotRaw (hcs k hk)) _ _ _ _ _

theorem hasHandle_run {tr : List PoolEvent} {answers : List Answer}
    (run : PoolRun E calls P tr answers) : ∀ e ∈ tr, e.HasHandle := by
  induction run with
  | start => exact fun e he => absurd he List.not_mem_nil
  | call run hstep ih =>
    intro e he
    rcases List.mem_append.mp he with he | he
    · exact ih e he
    · exact hasHandle_step (faithful_run run) hstep e he

/-- **No use after free, in any run.**  A handle that a verification gives to OpenSSL is not `NULL`;
it was made before that, once, and not freed by then. -/
theorem handles_used_in_time {tr : List PoolEvent} {answers : List Answer}
    (run : PoolRun E calls P tr answers) :
    UsedInTime (acts tr) ∧ ∀ n, PoolEvent.use n none ∉ tr :=
  ⟨usedInTime_run run, fun _ hmem => hasHandle_run run _ hmem⟩

end Handles

theorem handles_used_in_time_poolStory : UsedInTime poolStoryActs := by
  obtain ⟨y, hy, -, hacts, -⟩ := perform_poolStory
  have h := (handles_used_in_time (poolRun_of_perform hy)).1
  rwa [hacts] at h

/-! ## 6. What a freed keyset accepts -/

/-- A key without its handle and its secret. -/
def Key.wiped (k : Key PKey) : Key PKey := { k with pkey := none, hmacSecret := [] }

/-- What cleanup leaves in a slot. -/
theorem val_cleanupSlot {haveHmac : Bool} {k : Slot PKey} (h : Linked k)
    (hmac : k.key.hmacSecret ≠ [] → haveHmac = true) :
    (cleanupSlot haveHmac k).val.key = k.key.wiped ∧ Linked (cleanupSlot haveHmac k).val := by
  have hfree : (freePkey k).val.key = { k.key with pkey := none } ∧
      (freePkey k).val.pkeyOf = none ∧ (freePkey k).val.secretOf = k.secretOf := by
    unfold freePkey
    cases hp : k.pkeyOf with
    | none => exact ⟨by rw [val_pure, ← h.pkey hp], hp, rfl⟩
    | some i => exact ⟨rfl, rfl, rfl⟩
  obtain ⟨hkey, hpkeyOf, hsecretOf⟩ := hfree
  rw [cleanupSlot, val_bind]
  generalize (freePkey k).val = k' at hkey hpkeyOf hsecretOf
  have hwiped : k.key.wiped = { k'.key with hmacSecret := [] } := by
    rw [hkey]
    rfl
  unfold cleanseSecret
  cases hs : k'.secretOf with
  | none =>
    have hsecret : k'.key.hmacSecret = [] := by
      rw [hkey]
      exact h.secret (hsecretOf ▸ hs)
    refine ⟨by rw [val_pure, hwiped, ← hsecret], fun _ => ?_, fun _ => hsecret⟩
    rw [val_pure, hkey]
  | some i =>
    dsimp only
    split
    · exact ⟨hwiped.symm, fun _ => by rw [val_bind, val_pure, hkey], fun _ => rfl⟩
    next hno =>
      have hsecret : k'.key.hmacSecret = [] := by
        by_contra hne
        have hk : k.key.hmacSecret ≠ [] := by rwa [hkey] at hne
        exact hno (by simp [hmac hk, List.length_pos_iff.mpr hne])
      refine ⟨by rw [val_pure, hwiped, ← hsecret], fun _ => ?_, fun _ => hsecret⟩
      rw [val_pure, hkey]

theorem val_cleanupSlots {haveHmac : Bool} {ks : List (Slot PKey)}
    (h : ∀ k ∈ ks, Linked k ∧ (k.key.hmacSecret ≠ [] → haveHmac = true)) :
    (cleanupSlots haveHmac ks).val.map Slot.key = (ks.map Slot.key).map Key.wiped ∧
      ∀ k ∈ (cleanupSlots haveHmac ks).val, Linked k ∧ k.key.hmacSecret = [] := by
  induction ks with
  | nil => exact ⟨rfl, by simp [cleanupSlots]⟩
  | cons k ks ih =>
    obtain ⟨hlinked, hmac⟩ := h k List.mem_cons_self
    obtain ⟨hkey, hlinked'⟩ := val_cleanupSlot hlinked hmac
    obtain ⟨hkeys, hrest⟩ := ih fun k' hk' => h k' (List.mem_cons_of_mem _ hk')
    constructor
    · simp only [cleanupSlots, val_bind, val_pure, List.map_cons, hkey, hkeys]
    · intro k' hk'
      simp only [cleanupSlots, val_bind, val_pure, List.mem_cons] at hk'
      rcases hk' with rfl | hk'
      · exact ⟨hlinked', by rw [hkey]; rfl⟩
      · exact hrest k' hk'

section Freed

variable {E : Env PKey}

/-- A keyset in its slots, as the verifier sees it. -/
def keysetOf (s : Slots (Slot PKey)) : Jwks PKey := ⟨s.cells.map Slot.key, s.count⟩

theorem walk_keysetOf (s : Slots (Slot PKey)) : (keysetOf s).walk = s.filled.map Slot.key := by
  rw [Jwks.walk_eq_take]
  exact List.map_take.symm

/-- What is left of it when it is freed. -/
def freedKeyset (haveHmac : Bool) (s : Slots (Slot PKey)) : Jwks PKey :=
  keysetOf (jwksFree haveHmac ⟨s, true⟩).val.keyset

/-- A parse of either kind of document, with what it does. -/
inductive LoggedParse (E : Env PKey) : Traced Event (Parsed PKey) → Prop
  | jwks (L : Leftovers) (F : ParseFaults) (doc : Option Bytes) (pool : Option Pool) :
      LoggedParse E (jwksParseLogged E L F doc pool)
  | keyval (F : ParseFaults) (doc : Option Bytes) (pool : Option Pool) :
      LoggedParse E (keyvalParseLogged E F doc pool)

/-- Its keys are wiped. -/
theorem walk_freedKeyset {x : Traced Event (Parsed PKey)} (hx : LoggedParse E x)
    {s : Slots (Slot PKey)} (hs : x.val.keyset = some s) :
    (freedKeyset E.haveHmac s).walk = (keysetOf s).walk.map Key.wiped := by
  have hgoes : Goes E.haveHmac x := by
    cases hx with
    | jwks L F doc pool => exact goes_jwksParse doc pool
    | keyval F doc pool => exact goes_keyvalParse doc pool
  have hfilled : (jwksCleanup E.haveHmac s).val.filled = _ := filled_jwksCleanup s
  rw [freedKeyset, walk_keysetOf, walk_keysetOf]
  show (jwksCleanup E.haveHmac s).val.filled.map Slot.key = _
  rw [hfilled, (val_cleanupSlots (linked_of_goes hgoes hs)).1]

/-- A wiped key is compatible with an HMAC if it is symmetric and its `alg` allows it. -/
theorem keyCompatible_wiped {k : Key PKey} {alg : Alg} (ha : alg ∈ algs E.haveHmac)
    (hf : alg.family = .hmac) :
    keyCompatible E.ossl k.wiped alg = true ↔ k.kty = .oct ∧ (k.alg = [] ∨ k.alg = alg.name) := by
  constructor
  · intro h
    have hkty := keyCompatible_kty h
    rw [hf] at hkty
    exact ⟨hkty, keyCompatible_pin (k := k.wiped) h ha⟩
  · rintro ⟨hkty, hpin⟩
    have hpass := pin_passes (E := E) (k := k.wiped) hpin ha
    unfold keyCompatible
    rw [hpass, hf]
    simp [Key.wiped, hkty]

/-- Wiping a key does not change whether it is eligible. -/
theorem eligible_wiped {J J' : Jwks PKey} (hJ : J'.walk = J.walk.map Key.wiped)
    (kid : Option Bytes) (k : Key PKey) : Eligible J' kid k.wiped ↔ Eligible J kid k := by
  unfold Eligible
  rw [hJ]
  simp only [List.mem_map, exists_exists_and_eq_and, forall_exists_index, and_imp,
    forall_apply_eq_imp_iff₂]
  rfl

/-- The call is one of HMAC, so no handle is given to OpenSSL. -/
def KeyCall.IsHmac : KeyCall PKey → Prop
  | .evp _ => False
  | .hmac _ => True

/-- Under an HMAC algorithm the verifier makes no other call. -/
theorem hmac_verifyWithKey {alg : Alg} (hf : alg.family = .hmac) (k : Key PKey)
    (msg sig : Bytes) : Only KeyCall.IsHmac (verifyWithKeyTraced E k alg msg sig) := by
  refine .bind ?_ (.ite (fun _ => .pure _) fun _ => ?_)
  · unfold keyCompatibleTraced
    rw [hf]
    exact .ite (fun _ => .pure _) fun _ => .pure _
  · unfold primitiveTraced
    rw [hf]
    exact .ite (fun _ => only_hmacVerify _ trivial _ _ _) fun _ => .pure _

/-- **What is left in a freed keyset.**  An HMAC token is accepted with a keyset that was freed
exactly if a symmetric key of the keyset is eligible and allows its algorithm, and its signature is
the MAC under the empty secret; no handle is asked for on the way. -/
theorem freed_keyset_hmac {x : Traced Event (Parsed PKey)} (hx : LoggedParse E x)
    {s : Slots (Slot PKey)} (hs : x.val.keyset = some s) {t : Token} {alg : Alg}
    (ha : alg ∈ algs E.haveHmac) (hname : alg.name = t.alg) (hf : alg.family = .hmac)
    (pool : Pool) :
    (jwsVerify E (primitive E) (some t) (some (freedKeyset E.haveHmac s)) (some pool) = .ok ↔
      t.signature ≠ [] ∧
      (∃ k ∈ (keysetOf s).walk, Eligible (keysetOf s) (tokenKid (some t)) k ∧ k.kty = .oct ∧
        (k.alg = [] ∨ k.alg = t.alg)) ∧
      E.haveHmac = true ∧ ∃ md, alg.digest = some md ∧ E.ossl.digestByName md = true ∧
        E.ossl.hmac md [] t.signingInput = some t.signature) ∧
    (jwsVerifyTraced E id (verifyWithKeyTraced E) (some t)
        (some (freedKeyset E.haveHmac s).walk) (some pool)).val =
      jwsVerifyRun E (primitive E) (some t) (some (freedKeyset E.haveHmac s)) (some pool) ∧
    Only KeyCall.IsHmac (jwsVerifyTraced E id (verifyWithKeyTraced E) (some t)
      (some (freedKeyset E.haveHmac s).walk) (some pool)) := by
  have hwalk := walk_freedKeyset hx hs
  have hprim : ∀ k : Key PKey, primitive E k.wiped alg t.signingInput t.signature = .accepted ↔
      E.haveHmac = true ∧ ∃ md, alg.digest = some md ∧ E.ossl.digestByName md = true ∧
        E.ossl.hmac md [] t.signingInput = some t.signature := fun k =>
    (primitive_accepted_iff ha).trans (authentic_hmac_iff hf)
  refine ⟨?_, val_jwsVerifyTraced (fun k alg msg sig => val_verifyWithKeyTraced k alg msg sig) _
    (List.map_id _).symm _, ?_⟩
  · rw [jwsVerify_ok_iff]
    constructor
    · rintro ⟨alg', ha', hname', -, hsig, k', hk', hel, hcompat, hacc⟩
      obtain rfl := algs_name_inj ha' ha (hname'.trans hname.symm)
      rw [hwalk] at hk'
      obtain ⟨k, hk, rfl⟩ := List.mem_map.mp hk'
      obtain ⟨hkty, hpin⟩ := (keyCompatible_wiped ha hf).mp hcompat
      rw [hname] at hpin
      exact ⟨hsig, ⟨k, hk, (eligible_wiped hwalk _ k).mp hel, hkty, hpin⟩, (hprim k).mp hacc⟩
    · rintro ⟨hsig, ⟨k, hk, hel, hkty, hpin⟩, hmac⟩
      refine ⟨alg, ha, hname, hname ▸ (algs_name_ne _ _ ha).1, hsig, k.wiped, ?_,
        (eligible_wiped hwalk _ k).mpr hel,
        (keyCompatible_wiped ha hf).mpr ⟨hkty, hname ▸ hpin⟩, (hprim k).mpr hmac⟩
      rw [hwalk]
      exact List.mem_map_of_mem hk
  · rw [jwsVerifyTraced_eq]
    cases hchecked : checkedAlg E t with
    | none => exact .pure _
    | some alg' =>
      obtain rfl := algs_name_inj (checkedAlg_some hchecked).1 ha
        ((checkedAlg_some hchecked).2.trans hname.symm)
      exact .bind (only_passesTraced (fun k _ => hmac_verifyWithKey hf k _ _) _)
        (.ite (fun _ => .pure _) fun _ => .pure _)

end Freed

/-- A token with the header alg HS256, typ JWT, and its MAC under the empty secret. -/
def macToken : Token where
  header := .object [(ascii "alg", .string (ascii "HS256")), (ascii "typ", .string (ascii "JWT"))]
  payload := edClaims.2
  alg := ascii "HS256"
  kid := []
  signingInput := ascii "eyJhbGciOiJIUzI1NiIsInR5cCI6IkpXVCJ9.eyJzdWIiOiJqb2UifQ"
  signature := (stubDecode (ascii "htdcxYlsKG3jpsauHRfYL--X6SUsyXzgtlpjcRZ-YZ8")).getD []

/-- The facts about it and the keyset of a secret. -/
def macFacts : Facts where
  documents := [octJwks]
  macs := [(.sha256, [], macToken.signingInput, macToken.signature)]

/-- HS256 in the table. -/
def hs256 : Alg := ⟨ascii "HS256", .hmac, some .sha256, none, 0⟩

/-- Once its keyset is freed, the secret is not needed. -/
theorem freed_keyset_hmac_empty :
    ∃ s, (jwksParseLogged macFacts.env noLeftovers noParseFaults (some octJwks.1)
        (some ⟨⟩)).val.keyset = some s ∧
      jwsVerify macFacts.env (primitive macFacts.env) (some macToken)
        (some (freedKeyset true s)) (some ⟨⟩) = .ok := by
  have h : ((jwksParseLogged macFacts.env noLeftovers noParseFaults (some octJwks.1)
      (some ⟨⟩)).val.keyset.map fun s => (keysetOf s).walk.map fun k => (k.kty, k.alg)) =
      some [(.oct, [])] := by
    decide +kernel
  obtain ⟨s, hs, hkeys⟩ := Option.map_eq_some_iff.mp h
  obtain ⟨k, hwalk, hk⟩ := List.map_eq_singleton_iff.mp hkeys
  have hmem : k ∈ (keysetOf s).walk := hwalk ▸ List.mem_singleton_self k
  refine ⟨s, hs, (@freed_keyset_hmac _ macFacts.env _ (.jwks ..) s hs macToken hs256
    (by decide +kernel) rfl rfl ⟨⟩).1.mpr ⟨by decide +kernel, ⟨k, hmem, ?_, ?_, ?_⟩, rfl, .sha256,
    rfl, rfl, by decide +kernel⟩⟩
  · exact eligible_none _ k
  · exact congrArg Prod.fst hk
  · exact .inl (congrArg Prod.snd hk)

end NxeJwx

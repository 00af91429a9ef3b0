/-
# Calls on pools

A program that creates pools, decodes tokens and parses keysets into them, verifies, frees
keysets early and destroys pools, in any order and with any number of pools.  A pool is the list
of its cleanup handlers, which `ngx_destroy_pool` runs latest first; the objects of all pools are
kept in one such list, each with its pool, and named by the call that made it.

A pointer that is handed to a call is `NULL` or names the call that returned it.  Two things are
asked of the caller, and `step` is not defined otherwise: not to use a pointer into a pool that is
destroyed, and, as the header has it, not to pass a keyset that was freed to any call but
`nxe_jwx_jwks_free`, which may free it again.  The calls that only read a token or a keyset and
touch no handle (the accessors and lookups) leave no trace, and so do those that issue tokens, whose
handles are local.
-/
import NxeJwx.Cleanup
import NxeJwx.TokenLife
import NxeJwx.VerifyTrace

namespace NxeJwx

open FillSlots Traced TryEach Ledger

variable {PKey : Type}

/-! ## 1. Objects -/

/-- What a cleanup handler is given. -/
inductive PoolData (PKey : Type) where
  | token (c : TokenCell)
  | keyset (s : Slots (Slot PKey))

/-- `ngx_pool_cleanup_t`: the pool that it is in, the call that added it, what the handler is given
and whether it is armed; and whether the call returned the object. -/
structure PoolCleanup (PKey : Type) where
  pool : Nat
  call : Nat
  data : PoolData PKey
  armed : Bool
  returned : Bool

/-- The pools that are there, the objects in them, latest first, and the number of calls so
far. -/
structure Pools (PKey : Type) where
  pools : List Nat
  cleanups : List (PoolCleanup PKey)
  calls : Nat

/-- Before the first call. -/
def Pools.start : Pools PKey := ⟨[], [], 0⟩

/-- A call has returned. -/
def Pools.next (P : Pools PKey) : Pools PKey := { P with calls := P.calls + 1 }

/-- `ngx_pool_cleanup_add`, if the call came that far. -/
def Pools.add (P : Pools PKey) (pool : Option Nat) (data : Option (PoolData PKey))
    (returned : Bool) : Pools PKey :=
  match pool, data with
  | some pool, some data =>
    { P with cleanups := ⟨pool, P.calls, data, true, returned⟩ :: P.cleanups }
  | _, _ => P

/-- The object that a call made is changed. -/
def Pools.store (P : Pools PKey) (call : Nat) (data : PoolData PKey) (armed : Bool) :
    Pools PKey :=
  { P with cleanups := P.cleanups.map fun c =>
      if c.call = call then { c with data := data, armed := armed } else c }

/-! ## 2. Pointers -/

/-- The object that a call returned, while its pool is there. -/
def Pools.object (P : Pools PKey) (call : Nat) : Option (PoolCleanup PKey) :=
  P.cleanups.find? fun c => c.call == call && c.returned

theorem Pools.object_eq_some {P : Pools PKey} {n : Nat} {c : PoolCleanup PKey}
    (h : P.object n = some c) : c ∈ P.cleanups ∧ c.call = n ∧ c.returned = true := by
  have htest := List.find?_some h
  rw [Bool.and_eq_true, beq_iff_eq] at htest
  exact ⟨List.mem_of_find?_eq_some h, htest⟩

/-- A pointer that is handed to a call: `NULL`, or what it points to.  A pointer that does not
point to anything is not handed to a call. -/
def resolve {α : Type} (lookup : Nat → Option α) : Option Nat → Option (Option α)
  | none => some none
  | some n => (lookup n).map some

theorem resolve_eq_some {α : Type} {lookup : Nat → Option α} {p : Option Nat} {r : Option α}
    (h : resolve lookup p = some r) :
    (p = none ∧ r = none) ∨ ∃ n a, p = some n ∧ lookup n = some a ∧ r = some a := by
  cases p with
  | none => exact .inl ⟨rfl, (Option.some.inj h).symm⟩
  | some n =>
    obtain ⟨a, ha, rfl⟩ := Option.map_eq_some_iff.mp h
    exact .inr ⟨n, a, rfl, ha, rfl⟩

/-- A pool. -/
def Pools.pool (P : Pools PKey) (n : Nat) : Option Pool := if n ∈ P.pools then some ⟨⟩ else none

/-- A token that a call returned. -/
def Pools.token (P : Pools PKey) (n : Nat) : Option Token :=
  match P.object n with
  | some ⟨_, _, .token c, _, _⟩ => c.token
  | _ => none

/-- A keyset that a call returned, with its handler. -/
def Pools.keyset (P : Pools PKey) (n : Nat) : Option (Registered PKey) :=
  match P.object n with
  | some ⟨_, _, .keyset s, armed, _⟩ => some ⟨s, armed⟩
  | _ => none

theorem Pools.keyset_eq_some {P : Pools PKey} {n : Nat} {r : Registered PKey}
    (h : P.keyset n = some r) :
    ∃ c, P.object n = some c ∧ c.data = .keyset r.keyset ∧ c.armed = r.armed := by
  unfold Pools.keyset at h
  split at h
  next hobject =>
    obtain rfl := Option.some.inj h
    exact ⟨_, hobject, rfl, rfl⟩
  · exact absurd h (by simp)

/-- A keyset that was not freed: its handler is armed. -/
def Pools.live (P : Pools PKey) (n : Nat) : Option (Registered PKey) :=
  (P.keyset n).filter fun r => r.armed

theorem Pools.live_eq_some {P : Pools PKey} {n : Nat} {r : Registered PKey}
    (h : P.live n = some r) : P.keyset n = some r ∧ r.armed = true :=
  Option.filter_eq_some_iff.mp h

/-! ## 3. Events -/

/-- What a call does to a token or a keyset that some call made; or it hands a handle to OpenSSL,
the one that was made for an entry of a keyset or `NULL`. -/
inductive PoolEvent where
  | token (call : Nat) (e : TokenEvent)
  | keyset (call : Nat) (e : Event)
  | use (call : Nat) (entry : Option Nat)
  deriving DecidableEq, Repr

/-- The handle that a call on a key is given. -/
def Slot.handles (k : Slot PKey) : KeyCall PKey → List (Option Nat)
  | .evp _ => [k.pkeyOf]
  | .hmac _ => []

/-- The trial of a slot. -/
def slotTrial (E : Env PKey) (k : Slot PKey) (alg : Alg) (msg sig : Bytes) :
    Traced (Option Nat) Trial :=
  let x := verifyWithKeyTraced E k.key alg msg sig
  ⟨x.val, x.events.flatMap k.handles⟩

/-- The raw verification with the key of a slot. -/
def slotRaw (E : Env PKey) (k : Slot PKey) (algStr : Option Bytes) (msg sig : Bytes) :
    Traced (Option Nat) Rc :=
  let x := verifyRawWithKeyTraced E k.key algStr msg sig
  ⟨x.val, x.events.flatMap k.handles⟩

/-! ## 4. Calls -/

/-- The calls.  What the linked libraries do when they fail is an argument. -/
inductive PoolCall where
  | createPool
  | destroyPool (pool : Nat)
  | decode (left : Bytes → Bytes) (f : DecodeFaults) (tokenStr : Option Bytes)
      (pool : Option Nat)
  | jwksParse (L : Leftovers) (F : ParseFaults) (jwksJson : Option Bytes) (pool : Option Nat)
  | jwksParseKeyval (F : ParseFaults) (keyvalJson : Option Bytes) (pool : Option Nat)
  | jwksFree (jwks : Option Nat)
  | jwsVerify (token jwks pool : Option Nat)
  | jwksVerifyRaw (jwks : Option Nat) (keyid algStr msg sig : Option Bytes) (pool : Option Nat)
  | jwksVerifyRawByKid (jwks : Option Nat) (kid algStr msg sig : Option Bytes)
      (pool : Option Nat)

/-- What a call answers. -/
inductive Answer where
  | nothing
  | returned (isNull : Bool)
  | verified (run : VerifyRun)
  | rc (rc : Rc)
  deriving DecidableEq, Repr

/-- One cleanup handler of a pool. -/
def runHandler (haveHmac : Bool) (c : PoolCleanup PKey) : Traced PoolEvent PUnit :=
  if c.armed then
    match c.data with
    | .token t => do
      let _ ← (tokenCleanup t).relabel (PoolEvent.token c.call)
      return ⟨⟩
    | .keyset s => do
      let _ ← (jwksCleanup haveHmac s).relabel (PoolEvent.keyset c.call)
      return ⟨⟩
  else return ⟨⟩

/-- The loop of `ngx_destroy_pool` over its handlers. -/
def runHandlers (haveHmac : Bool) : List (PoolCleanup PKey) → Traced PoolEvent PUnit
  | [] => return ⟨⟩
  | c :: cs => do
    runHandler haveHmac c
    runHandlers haveHmac cs

/-- A keyset is registered, and returned or not. -/
def Pools.parsed (P : Pools PKey) (pool : Option Nat) (parsed : Traced Event (Parsed PKey)) :
    Traced PoolEvent (Pools PKey × Answer) := do
  let p ← parsed.relabel (PoolEvent.keyset P.calls)
  return ((P.add pool (p.keyset.map .keyset) p.returned).next, .returned p.jwks.isNone)

/-- The keys of a keyset that a pointer points to. -/
def Pools.slots (P : Pools PKey) (jwks : Option Nat) : Option (Option (List (Slot PKey))) :=
  (resolve P.live jwks).map fun r => r.map fun r => r.keyset.filled

/-- The events of a verification are about the keyset that it was given. -/
def usesOf {β : Type} (jwks : Option Nat) (x : Traced (Option Nat) β) : Traced PoolEvent β :=
  x.relabel (PoolEvent.use (jwks.getD 0))

/-- One call, which the caller may make if its pointers are `NULL` or point to something, which for
a keyset that is not only freed is one that was not freed. -/
def step (E : Env PKey) (P : Pools PKey) :
    PoolCall → Option (Traced PoolEvent (Pools PKey × Answer))
  | .createPool => some (return ({ P.next with pools := P.calls :: P.pools }, .nothing))
  | .destroyPool pool => (P.pool pool).map fun _ => do
    runHandlers E.haveHmac (P.cleanups.filter fun c => c.pool == pool)
    return ({ P.next with
      pools := P.pools.filter fun p => p != pool
      cleanups := P.cleanups.filter fun c => c.pool != pool }, .nothing)
  | .decode left f tokenStr pool => (resolve P.pool pool).map fun pool' => do
    let d ← (decodeLogged E left f tokenStr pool').relabel (PoolEvent.token P.calls)
    return ((P.add pool (d.cell.map .token) d.returned).next, .returned d.token.isNone)
  | .jwksParse L F jwksJson pool => (resolve P.pool pool).map fun pool' =>
    P.parsed pool (jwksParseLogged E L F jwksJson pool')
  | .jwksParseKeyval F keyvalJson pool => (resolve P.pool pool).map fun pool' =>
    P.parsed pool (keyvalParseLogged E F keyvalJson pool')
  | .jwksFree jwks =>
    match jwks with
    | none => some (return (P.next, .nothing))
    | some n => (P.keyset n).map fun r => do
      let r ← (jwksFree E.haveHmac r).relabel (PoolEvent.keyset n)
      return ((P.store n (.keyset r.keyset) r.armed).next, .nothing)
  | .jwsVerify token jwks pool => do
    let token ← resolve P.token token
    let keys ← P.slots jwks
    let pool ← resolve P.pool pool
    return do
      let run ← usesOf jwks (jwsVerifyTraced E Slot.key (slotTrial E) token keys pool)
      return (P.next, .verified run)
  | .jwksVerifyRaw jwks keyid algStr msg sig pool => do
    let keys ← P.slots jwks
    let pool ← resolve P.pool pool
    return do
      let rc ← usesOf jwks (jwksVerifyRawTraced Slot.key (slotRaw E) keys keyid algStr msg sig pool)
      return (P.next, .rc rc)
  | .jwksVerifyRawByKid jwks kid algStr msg sig pool => do
    let keys ← P.slots jwks
    let pool ← resolve P.pool pool
    return do
      let rc ← usesOf jwks
        (jwksVerifyRawByKidTraced Slot.key (slotRaw E) keys kid algStr msg sig pool)
      return (P.next, .rc rc)

/-- A run: the calls so far, the pools after them, what happened and what was answered. -/
inductive PoolRun (E : Env PKey) :
    List PoolCall → Pools PKey → List PoolEvent → List Answer → Prop
  | start : PoolRun E [] .start [] []
  | call {calls : List PoolCall} {P : Pools PKey} {tr : List PoolEvent} {answers : List Answer}
      {c : PoolCall} {x : Traced PoolEvent (Pools PKey × Answer)}
      (run : PoolRun E calls P tr answers) (step : step E P c = some x) :
      PoolRun E (calls ++ [c]) x.val.1 (tr ++ x.events) (answers ++ [x.val.2])

/-- The calls of a list, one after another. -/
def perform (E : Env PKey) (P : Pools PKey) :
    List PoolCall → Option (Traced PoolEvent (Pools PKey × List Answer))
  | [] => some (return (P, []))
  | c :: cs => do
    let x ← step E P c
    let y ← perform E x.val.1 cs
    return ⟨(y.val.1, x.val.2 :: y.val.2), x.events ++ y.events⟩

/-- What is performed after a run makes a longer run. -/
theorem poolRun_append {E : Env PKey} {calls cs : List PoolCall} {P : Pools PKey}
    {tr : List PoolEvent} {answers : List Answer} (run : PoolRun E calls P tr answers)
    {y : Traced PoolEvent (Pools PKey × List Answer)} (h : perform E P cs = some y) :
    PoolRun E (calls ++ cs) y.val.1 (tr ++ y.events) (answers ++ y.val.2) := by
  induction cs generalizing calls P tr answers y with
  | nil =>
    obtain rfl := Option.some.inj h
    simpa using run
  | cons c cs ih =>
    obtain ⟨x, hx, hrest⟩ := Option.bind_eq_some_iff.mp h
    obtain ⟨z, hz, hy⟩ := Option.bind_eq_some_iff.mp hrest
    obtain rfl := Option.some.inj hy
    have hrun := ih (.call run hx) hz
    simpa using hrun

/-- A list of calls that can be performed is a run. -/
theorem poolRun_of_perform {E : Env PKey} {cs : List PoolCall}
    {y : Traced PoolEvent (Pools PKey × List Answer)} (h : perform E .start cs = some y) :
    PoolRun E cs y.val.1 y.events y.val.2 := by
  simpa using poolRun_append .start h

end NxeJwx

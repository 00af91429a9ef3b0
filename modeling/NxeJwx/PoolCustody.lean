/-
# Custody over any run

What holds in every run of calls on any number of pools: each JSON root and each `EVP_PKEY` that a
call makes is freed exactly once, no later than with its pool, whichever calls fail on the way and
however often its keyset is freed early (`pools_in_custody`); and each handle that is given to
OpenSSL is one that was made before and not freed by then (`usedInTime_run`).

The invariant is that the books hold what the objects in the pools point to (`InCustody`).  A call
does one of five things to the pools: it makes one, destroys one, adds an object, frees a keyset
or only reads; and each of them keeps it (`inCustody_step`).
-/
import NxeJwx.Facts
import NxeJwx.PoolCalls
import NxeJwx.Released

namespace NxeJwx

open FillSlots Traced TryEach Ledger

variable {PKey : Type} {haveHmac : Bool}

/-! ## 1. The books of the pools -/

/-- A root of a token or a resource of a keyset, by the call that made it. -/
inductive Owned where
  | token (call : Nat) (root : TokenRoot)
  | keyset (call : Nat) (r : Resource)
  deriving DecidableEq, Repr

/-- The call that made it. -/
def Owned.call : Owned → Nat
  | .token n _ => n
  | .keyset n _ => n

theorem Owned.token_injective (n : Nat) : Function.Injective (Owned.token n) :=
  fun _ _ h => (Owned.token.inj h).2

theorem Owned.keyset_injective (n : Nat) : Function.Injective (Owned.keyset n) :=
  fun _ _ h => (Owned.keyset.inj h).2

/-- What an event is in the books: an entry, a use, or nothing. -/
def PoolEvent.act : PoolEvent → Option (Act Owned)
  | .token n (.ledger e) => some (.enter (e.map (Owned.token n)))
  | .keyset n (.ledger e) => some (.enter (e.map (Owned.keyset n)))
  | .use n (some i) => some (.use (.keyset n (.pkey i)))
  | _ => none

/-- The books of a run. -/
def acts (tr : List PoolEvent) : List (Act Owned) := tr.filterMap PoolEvent.act

@[simp] theorem acts_nil : acts [] = [] := rfl

@[simp] theorem acts_append (tr tr' : List PoolEvent) : acts (tr ++ tr') = acts tr ++ acts tr' :=
  List.filterMap_append ..

/-- What a call does to a token is entered under the name of the call. -/
theorem acts_token (n : Nat) (tr : List TokenEvent) : acts (tr.map (PoolEvent.token n)) =
    ((rootBooks tr).map (Entry.map (Owned.token n))).map .enter := by
  induction tr with
  | nil => rfl
  | cons e tr ih =>
    cases e with
    | ledger e => exact congrArg (Act.enter (e.map (Owned.token n)) :: ·) ih
    | hold | cleanse => exact ih

/-- ... and what it does to a keyset likewise. -/
theorem acts_keyset (n : Nat) (tr : List Event) : acts (tr.map (PoolEvent.keyset n)) =
    ((books tr).map (Entry.map (Owned.keyset n))).map .enter := by
  induction tr with
  | nil => rfl
  | cons e tr ih =>
    cases e with
    | ledger e => exact congrArg (Act.enter (e.map (Owned.keyset n)) :: ·) ih
    | hold | cleanse => exact ih

theorem acts_use (n : Nat) (hs : List (Option Nat)) : acts (hs.map (PoolEvent.use n)) =
    ((hs.filterMap id).map fun i => Owned.keyset n (.pkey i)).map .use := by
  induction hs with
  | nil => rfl
  | cons h hs ih =>
    cases h with
    | none => exact ih
    | some i => exact congrArg (Act.use (Owned.keyset n (.pkey i)) :: ·) ih

/-- What an object points to. -/
def PoolCleanup.owned (c : PoolCleanup PKey) : List Owned :=
  match c.data with
  | .token t => t.roots.map (Owned.token c.call)
  | .keyset s => (handlesOf s.filled).map (Owned.keyset c.call)

theorem PoolCleanup.call_of_owned {c : PoolCleanup PKey} {o : Owned} (h : o ∈ c.owned) :
    o.call = c.call := by
  unfold PoolCleanup.owned at h
  cases hdata : c.data <;> rw [hdata] at h <;> obtain ⟨_, _, rfl⟩ := List.mem_map.mp h <;> rfl

/-- What the objects in all pools point to. -/
def Pools.owned (P : Pools PKey) : List Owned := P.cleanups.flatMap PoolCleanup.owned

/-! ## 2. The invariant -/

/-- The books hold what the objects point to; every call so far has a number below the next; the
objects are named apart and are in pools that are there; and what was freed early points to
nothing. -/
structure InCustody (P : Pools PKey) (tr : List PoolEvent) : Prop where
  custody : Custody (acts tr) P.owned
  below : ∀ e ∈ entries (acts tr), e.resource.call < P.calls
  named : ∀ c ∈ P.cleanups, c.call < P.calls
  distinct : (P.cleanups.map PoolCleanup.call).Nodup
  alive : ∀ c ∈ P.cleanups, c.pool ∈ P.pools
  disarmed : ∀ c ∈ P.cleanups, c.armed = false → c.owned = []

theorem inCustody_start : InCustody (.start : Pools PKey) [] where
  custody := custody_nil
  below _ h := absurd h List.not_mem_nil
  named _ h := absurd h List.not_mem_nil
  distinct := .nil
  alive _ h := absurd h List.not_mem_nil
  disarmed _ h := absurd h List.not_mem_nil

/-- Running the handlers of some objects releases what they point to. -/
theorem acts_runHandlers (cs : List (PoolCleanup PKey))
    (h : ∀ c ∈ cs, c.armed = false → c.owned = []) :
    acts (runHandlers haveHmac cs).events =
      ((cs.flatMap PoolCleanup.owned).map Entry.release).map .enter := by
  induction cs with
  | nil => rfl
  | cons c cs ih =>
    have hone : acts (runHandler haveHmac c).events = (c.owned.map Entry.release).map .enter := by
      unfold runHandler
      cases harmed : c.armed with
      | false =>
        rw [h c List.mem_cons_self harmed]
        rfl
      | true =>
        rw [if_pos rfl, PoolCleanup.owned]
        cases c.data with
        | token t =>
          simp only [events_bind, events_pure, events_relabel, List.append_nil, acts_token,
            rootBooks_tokenCleanup, List.map_map]
          rfl
        | keyset s =>
          simp only [events_bind, events_pure, events_relabel, List.append_nil, acts_keyset,
            events_jwksCleanup, books_releaseEvents, List.map_map]
          rfl
    have hrest := ih fun c' hc' => h c' (List.mem_cons_of_mem _ hc')
    rw [runHandlers, events_bind, acts_append, hone, hrest, List.flatMap_cons, List.map_append,
      List.map_append]

/-- What the objects of two kinds point to. -/
theorem owned_perm_filter (p : PoolCleanup PKey → Bool) (cs : List (PoolCleanup PKey)) :
    (cs.flatMap PoolCleanup.owned).Perm ((cs.filter p).flatMap PoolCleanup.owned ++
      (cs.filter fun c => !p c).flatMap PoolCleanup.owned) := by
  rw [← List.flatMap_append]
  exact (List.filter_append_perm p cs).symm.flatMap_right _

/-! ## 3. One call -/

section Calls

variable {E : Env PKey} {P : Pools PKey} {tr : List PoolEvent}

theorem InCustody.later (h : InCustody P tr) {n : Nat} (hn : P.calls ≤ n) {o : Owned}
    (ho : o.call = n) : about o (entries (acts tr)) = [] := by
  refine about_eq_nil ?_
  intro e he heq
  have hlt := h.below e he
  rw [heq, ho] at hlt
  omega

/-- A pool is created. -/
theorem inCustody_create (h : InCustody P tr) :
    InCustody { P.next with pools := P.calls :: P.pools } tr where
  custody := h.custody
  below e he := Nat.lt_succ_of_lt (h.below e he)
  named c hc := Nat.lt_succ_of_lt (h.named c hc)
  distinct := h.distinct
  alive c hc := List.mem_cons_of_mem _ (h.alive c hc)
  disarmed := h.disarmed

/-- What a call does is about calls up to this one. -/
theorem InCustody.below_enter (h : InCustody P tr) {evs : List PoolEvent} {es : List (Entry Owned)}
    (hevs : acts evs = es.map .enter) (hes : ∀ e ∈ es, e.resource.call ≤ P.calls) :
    ∀ e ∈ entries (acts (tr ++ evs)), e.resource.call < P.calls + 1 := by
  intro e he
  rw [acts_append, hevs, entries_append, entries_enter, List.mem_append] at he
  rcases he with he | he
  · exact Nat.lt_succ_of_lt (h.below e he)
  · exact Nat.lt_succ_of_le (hes e he)

/-- So is the release of what objects point to. -/
theorem InCustody.call_le_of_release (h : InCustody P tr) {cs : List (PoolCleanup PKey)}
    (hcs : ∀ c ∈ cs, c ∈ P.cleanups) :
    ∀ e ∈ (cs.flatMap PoolCleanup.owned).map Entry.release, e.resource.call ≤ P.calls := by
  intro e he
  obtain ⟨o, ho, rfl⟩ := List.mem_map.mp he
  obtain ⟨c, hc, hoc⟩ := List.mem_flatMap.mp ho
  have hlt := h.named c (hcs c hc)
  rw [← PoolCleanup.call_of_owned hoc] at hlt
  exact hlt.le

/-- The objects stay what they are. -/
theorem inCustody_next (h : InCustody P tr) {evs : List PoolEvent}
    (hcustody : Custody (acts (tr ++ evs)) P.owned)
    (hbelow : ∀ e ∈ entries (acts (tr ++ evs)), e.resource.call < P.calls + 1) :
    InCustody P.next (tr ++ evs) where
  custody := hcustody
  below := hbelow
  named c hc := Nat.lt_succ_of_lt (h.named c hc)
  distinct := h.distinct
  alive := h.alive
  disarmed := h.disarmed

/-- A call only reads, and uses what is held. -/
theorem inCustody_read (h : InCustody P tr) {n : Nat} {hs : List (Option Nat)}
    (hhs : ∀ i, some i ∈ hs → Owned.keyset n (.pkey i) ∈ P.owned) :
    InCustody P.next (tr ++ hs.map (PoolEvent.use n)) := by
  refine inCustody_next h ?_ ?_
  · rw [acts_append, acts_use]
    refine h.custody.uses ?_
    intro o ho
    obtain ⟨i, hi, rfl⟩ := List.mem_map.mp ho
    obtain ⟨_, hmem, rfl⟩ := List.mem_filterMap.mp hi
    exact hhs i hmem
  · rw [acts_append, acts_use, entries_append, entries_use, List.append_nil]
    exact fun e he => Nat.lt_succ_of_lt (h.below e he)

/-- An object is registered under the number of its call, which no other has. -/
theorem inCustody_register (h : InCustody P tr) {evs : List PoolEvent} {p : Nat}
    (hp : p ∈ P.pools) {d : PoolData PKey} {returned : Bool}
    (hcustody : Custody (acts (tr ++ evs))
      (P.owned ++ (⟨p, P.calls, d, true, returned⟩ : PoolCleanup PKey).owned))
    (hbelow : ∀ e ∈ entries (acts (tr ++ evs)), e.resource.call < P.calls + 1) :
    InCustody (P.add (some p) (some d) returned).next (tr ++ evs) where
  custody := hcustody.perm List.perm_append_comm
  below := hbelow
  named c hc := by
    rcases List.mem_cons.mp hc with rfl | hc
    · exact Nat.lt_succ_self _
    · exact Nat.lt_succ_of_lt (h.named c hc)
  distinct := by
    refine List.nodup_cons.mpr ⟨?_, h.distinct⟩
    intro hmem
    obtain ⟨c, hc, heq⟩ := List.mem_map.mp hmem
    exact absurd heq (h.named c hc).ne
  alive c hc := by
    rcases List.mem_cons.mp hc with rfl | hc
    · exact hp
    · exact h.alive c hc
  disarmed c hc := by
    rcases List.mem_cons.mp hc with rfl | hc
    · exact fun harmed => Bool.noConfusion harmed
    · exact h.disarmed c hc

/-- A call adds an object to a pool, if it comes that far; the names of what it makes are its
own. -/
theorem inCustody_add (h : InCustody P tr) {α : Type} [DecidableEq α] {f : α → Owned}
    (hf : Function.Injective f) (hcall : ∀ a, (f a).call = P.calls) {es : List (Entry α)}
    {held : List α} (hh : Holds es held) {pool : Option Nat} {data : Option (PoolData PKey)}
    {returned : Bool} {evs : List PoolEvent} (hpool : ∀ p, pool = some p → p ∈ P.pools)
    (hevs : acts evs = (es.map (Entry.map f)).map .enter)
    (hnothing : pool = none ∨ data = none → held = [])
    (howned : ∀ p d, data = some d →
      (⟨p, P.calls, d, true, returned⟩ : PoolCleanup PKey).owned = held.map f) :
    InCustody (P.add pool data returned).next (tr ++ evs) := by
  have hcustody : Custody (acts (tr ++ evs)) (P.owned ++ held.map f) := by
    rw [acts_append, hevs]
    exact h.custody.enter
      (h.custody.holds.append_renamed hf (fun a => h.later le_rfl (hcall a)) hh)
  have hbelow : ∀ e ∈ entries (acts (tr ++ evs)), e.resource.call < P.calls + 1 := by
    refine h.below_enter hevs ?_
    intro e he
    obtain ⟨e', -, rfl⟩ := List.mem_map.mp he
    rw [Entry.resource_map, hcall]
  have hsame : held = [] → InCustody P.next (tr ++ evs) := by
    intro hheld
    rw [hheld, List.map_nil, List.append_nil] at hcustody
    exact inCustody_next h hcustody hbelow
  cases pool with
  | none => exact hsame (hnothing (.inl rfl))
  | some p =>
    cases data with
    | none => exact hsame (hnothing (.inr rfl))
    | some d => exact inCustody_register h (hpool p rfl) ((howned p d rfl).symm ▸ hcustody) hbelow

/-- A pool is destroyed, with its objects. -/
theorem inCustody_destroy (h : InCustody P tr) (pool : Nat) :
    InCustody { P.next with
        pools := P.pools.filter fun p => p != pool
        cleanups := P.cleanups.filter fun c => c.pool != pool }
      (tr ++ (runHandlers haveHmac (P.cleanups.filter fun c => c.pool == pool)).events) := by
  have hrun : acts (runHandlers haveHmac (P.cleanups.filter fun c => c.pool == pool)).events = _ :=
    acts_runHandlers _ fun c hc => h.disarmed c (List.mem_of_mem_filter hc)
  refine ⟨?_, ?_, ?_, ?_, ?_, ?_⟩
  · rw [acts_append, hrun]
    refine h.custody.enter ?_
    exact (h.custody.holds.perm (owned_perm_filter (fun c => c.pool == pool) _)).releaseFirst
  · exact h.below_enter hrun (h.call_le_of_release fun c hc => List.mem_of_mem_filter hc)
  · intro c hc
    exact Nat.lt_succ_of_lt (h.named c (List.mem_of_mem_filter hc))
  · exact h.distinct.sublist (List.filter_sublist.map _)
  · intro c hc
    obtain ⟨hmem, hne⟩ := List.mem_filter.mp hc
    exact List.mem_filter.mpr ⟨h.alive c hmem, hne⟩
  · intro c hc
    exact h.disarmed c (List.mem_of_mem_filter hc)

/-- The object that a pointer points to, among the others. -/
theorem object_split (h : InCustody P tr) {n : Nat} {c : PoolCleanup PKey}
    (hc : P.object n = some c) : ∃ before after, P.cleanups = before ++ c :: after ∧
      ∀ data armed, (P.store n data armed).cleanups =
        before ++ { c with data := data, armed := armed } :: after := by
  obtain ⟨hmem, hcall, -⟩ := Pools.object_eq_some hc
  obtain ⟨before, after, hsplit⟩ := List.append_of_mem hmem
  refine ⟨before, after, hsplit, ?_⟩
  intro data armed
  have hdistinct := h.distinct
  rw [hsplit, List.map_append, List.map_cons, List.nodup_append, List.nodup_cons] at hdistinct
  obtain ⟨-, ⟨hafter, -⟩, hbefore⟩ := hdistinct
  have hother : ∀ cs : List (PoolCleanup PKey), (∀ c' ∈ cs, c'.call ≠ n) →
      (cs.map fun c' => if c'.call = n then { c' with data := data, armed := armed } else c') =
        cs := by
    intro cs hcs
    rw [List.map_congr_left fun c' hc' => if_neg (hcs c' hc'), List.map_id']
  show P.cleanups.map _ = _
  rw [hsplit, List.map_append, List.map_cons, hother before, hother after, if_pos hcall]
  · intro c' hc' hn
    exact hafter (List.mem_map.mpr ⟨c', hc', hn.trans hcall.symm⟩)
  · intro c' hc' hn
    exact hbefore _ (List.mem_map_of_mem hc') _ List.mem_cons_self (hn.trans hcall.symm)

/-- Storing changes neither the pool of an object nor its name. -/
theorem mem_store {n : Nat} {data : PoolData PKey} {armed : Bool} {c : PoolCleanup PKey}
    (h : c ∈ (P.store n data armed).next.cleanups) :
    ∃ c' ∈ P.cleanups, c.call = c'.call ∧ c.pool = c'.pool := by
  obtain ⟨c', hc', rfl⟩ := List.mem_map.mp h
  refine ⟨c', hc', ?_⟩
  split <;> exact ⟨rfl, rfl⟩

/-- After a cleanup the slots point to no handle. -/
theorem handlesOf_jwksCleanup (s : Slots (Slot PKey)) :
    handlesOf (jwksCleanup haveHmac s).val.filled = [] := by
  have hbooks : books ((jwksCleanup haveHmac s).val.filled.flatMap (releaseEvents haveHmac)) = _ :=
    books_releaseEvents _
  have hclean : (jwksCleanup haveHmac s).val.filled.flatMap (releaseEvents haveHmac) = [] :=
    List.flatMap_eq_nil_iff.mpr (cleaned_jwksCleanup haveHmac s)
  rw [hclean] at hbooks
  exact List.map_eq_nil_iff.mp hbooks.symm

section Store

variable {n : Nat} {c : PoolCleanup PKey} {data : PoolData PKey} {armed : Bool}

/-- What is left when an object is stored that points to nothing. -/
theorem owned_store (h : InCustody P tr) (hc : P.object n = some c)
    (hnow : ({ c with data := data, armed := armed } : PoolCleanup PKey).owned = []) :
    P.owned.Perm (c.owned ++ (P.store n data armed).owned) := by
  obtain ⟨before, after, hsplit, hstore⟩ := object_split h hc
  have hrest : (P.store n data armed).owned =
      before.flatMap PoolCleanup.owned ++ after.flatMap PoolCleanup.owned := by
    rw [Pools.owned, hstore, List.flatMap_append, List.flatMap_cons, hnow, List.nil_append]
  rw [hrest, Pools.owned, hsplit, List.flatMap_append, List.flatMap_cons]
  exact List.perm_append_comm_assoc ..

/-- Storing an object keeps the objects apart. -/
theorem distinct_store (h : InCustody P tr) (hc : P.object n = some c) :
    ((P.store n data armed).cleanups.map PoolCleanup.call).Nodup := by
  obtain ⟨before, after, hsplit, hstore⟩ := object_split h hc
  have hcalls : (P.store n data armed).cleanups.map PoolCleanup.call =
      P.cleanups.map PoolCleanup.call := by
    rw [hstore, hsplit, List.map_append, List.map_append, List.map_cons, List.map_cons]
  exact hcalls ▸ h.distinct

/-- What is disarmed points to nothing, the stored object included. -/
theorem disarmed_store (h : InCustody P tr) (hc : P.object n = some c)
    (hnow : ({ c with data := data, armed := armed } : PoolCleanup PKey).owned = []) :
    ∀ d ∈ (P.store n data armed).cleanups, d.armed = false → d.owned = [] := by
  obtain ⟨before, after, hsplit, hstore⟩ := object_split h hc
  intro d hd harmed
  rw [hstore] at hd
  have hold : ∀ d ∈ before ++ after, d.armed = false → d.owned = [] := fun d hd =>
    h.disarmed d (hsplit ▸ List.mem_append.mpr ((List.mem_append.mp hd).imp_right
      (List.mem_cons_of_mem c)))
  rcases List.mem_append.mp hd with hd | hd
  · exact hold d (List.mem_append_left _ hd) harmed
  rcases List.mem_cons.mp hd with rfl | hd
  · exact hnow
  · exact hold d (List.mem_append_right _ hd) harmed

/-- An object is emptied: what it pointed to is released. -/
theorem inCustody_store (h : InCustody P tr) (hc : P.object n = some c) {evs : List PoolEvent}
    (hevs : acts evs = (c.owned.map Entry.release).map .enter)
    (hnow : ({ c with data := data, armed := armed } : PoolCleanup PKey).owned = []) :
    InCustody (P.store n data armed).next (tr ++ evs) where
  custody := by
    rw [acts_append, hevs]
    exact h.custody.enter (h.custody.holds.perm (owned_store h hc hnow)).releaseFirst
  below := by
    refine h.below_enter hevs ?_
    have hrelease := @InCustody.call_le_of_release _ P tr h [c]
      (List.forall_mem_singleton.mpr (Pools.object_eq_some hc).1)
    rwa [List.flatMap_singleton] at hrelease
  named d hd := by
    obtain ⟨d', hd', hcall, -⟩ := mem_store hd
    rw [hcall]
    exact Nat.lt_succ_of_lt (h.named d' hd')
  distinct := distinct_store h hc
  alive d hd := by
    obtain ⟨d', hd', -, hpool⟩ := mem_store hd
    rw [hpool]
    exact h.alive d' hd'
  disarmed := disarmed_store h hc hnow

end Store

/-- A keyset is freed: its handler is disarmed, and it points to nothing. -/
theorem inCustody_free (h : InCustody P tr) {n : Nat} {r : Registered PKey}
    (hr : P.keyset n = some r) :
    InCustody (P.store n (.keyset (jwksFree haveHmac r).val.keyset)
        (jwksFree haveHmac r).val.armed).next
      (tr ++ (jwksFree haveHmac r).events.map (PoolEvent.keyset n)) := by
  obtain ⟨c, hc, hdata, -⟩ := Pools.keyset_eq_some hr
  obtain ⟨-, hcall, -⟩ := Pools.object_eq_some hc
  refine inCustody_store h hc ?_ ?_
  · rw [acts_keyset]
    simp only [jwksFree, events_bind, events_pure, List.append_nil, events_jwksCleanup,
      books_releaseEvents, PoolCleanup.owned, hdata, hcall, List.map_map]
    rfl
  · show (handlesOf (jwksCleanup haveHmac r.keyset).val.filled).map _ = _
    rw [handlesOf_jwksCleanup, List.map_nil]

end Calls

/-! ## 4. Every call -/

/-- What a parse leaves held. -/
def Parsed.handles (p : Parsed PKey) : List Resource :=
  (p.keyset.map fun s => handlesOf s.filled).getD []

/-- The books of a parse hold the handles of the counted slots, the root being freed. -/
theorem holds_of_goes {x : Traced Event (Parsed PKey)} (h : Goes haveHmac x) :
    Holds (books x.events) x.val.handles := by
  cases h with
  | nothing keyset events =>
    rw [events, Parsed.handles, keyset]
    exact holds_nil
  | left keyset events =>
    rw [events, Parsed.handles, keyset]
    exact holds_nil.bounce rfl
  | @loop ι out val evs is s keyset nodup effect filled events =>
    have hroot : Holds (books [.ledger (.acquire .root)]) [.root] := holds_nil.acquire rfl
    have hloop := holds_visited is nodup effect hroot
      fun x _ => about_acquire_ne (fun hne => Resource.noConfusion hne) _
    rw [events, books_append, Parsed.handles, keyset, Option.map_some, Option.getD_some, filled]
    exact Holds.release hloop

section Step

variable {E : Env PKey} {P : Pools PKey} {tr : List PoolEvent}

theorem mem_of_resolve {pool : Option Nat} {pool' : Option Pool}
    (h : resolve P.pool pool = some pool') :
    (∀ p, pool = some p → p ∈ P.pools) ∧ (pool = none → pool' = none) := by
  rcases resolve_eq_some h with ⟨rfl, rfl⟩ | ⟨p, a, rfl, hp, rfl⟩
  · exact ⟨fun p hp => absurd hp (by simp), fun _ => rfl⟩
  · refine ⟨?_, fun hnone => absurd hnone (by simp)⟩
    intro p' hp'
    obtain rfl := Option.some.inj hp'
    by_contra hmem
    simp [Pools.pool, hmem] at hp

/-- A parse that went as it should. -/
theorem inCustody_parsed (h : InCustody P tr) {pool : Option Nat}
    (hpool : ∀ p, pool = some p → p ∈ P.pools) {x : Traced Event (Parsed PKey)}
    (hx : Goes haveHmac x) (hnone : pool = none → x.val.keyset = none) :
    InCustody (P.parsed pool x).val.1 (tr ++ (P.parsed pool x).events) := by
  have hevs : (P.parsed pool x).events = x.events.map (PoolEvent.keyset P.calls) := by
    simp [Pools.parsed]
  rw [hevs]
  refine inCustody_add h (Owned.keyset_injective P.calls) (fun _ => rfl) (holds_of_goes hx) hpool
    (acts_keyset _ _) ?_ ?_
  · intro hnothing
    have hkeyset : x.val.keyset = none :=
      hnothing.elim hnone fun hdata => Option.map_eq_none_iff.mp hdata
    rw [Parsed.handles, hkeyset]
    rfl
  · intro p d hd
    obtain ⟨s, hs, rfl⟩ := Option.map_eq_some_iff.mp hd
    rw [val_relabel] at hs
    rw [Parsed.handles, hs]
    rfl

/-- A decoded token likewise. -/
theorem inCustody_decoded (h : InCustody P tr) {pool : Option Nat} {pool' : Option Pool}
    (hpool : resolve P.pool pool = some pool') (left : Bytes → Bytes) (f : DecodeFaults)
    (tokenStr : Option Bytes) :
    InCustody (P.add pool ((decodeLogged E left f tokenStr pool').val.cell.map .token)
        (decodeLogged E left f tokenStr pool').val.returned).next
      (tr ++ (decodeLogged E left f tokenStr pool').events.map (PoolEvent.token P.calls)) := by
  obtain ⟨hmem, hnone⟩ := mem_of_resolve hpool
  refine inCustody_add h (Owned.token_injective P.calls) (fun _ => rfl)
    (holds_decodeLogged f tokenStr pool') hmem (acts_token _ _) ?_ ?_
  · intro hnothing
    have hcell : (decodeLogged E left f tokenStr pool').val.cell = none := by
      rcases hnothing with hp | hdata
      · rw [hnone hp]
        rfl
      · exact Option.map_eq_none_iff.mp hdata
    rw [Decoding.roots, hcell]
    rfl
  · intro p d hd
    obtain ⟨c, hc, rfl⟩ := Option.map_eq_some_iff.mp hd
    rw [Decoding.roots, hc]
    rfl

/-- The keys that a pointer points to are the counted slots of a keyset. -/
theorem slots_eq_some {jwks : Option Nat} {cs : List (Slot PKey)}
    (h : P.slots jwks = some (some cs)) :
    ∃ n r, jwks = some n ∧ P.live n = some r ∧ cs = r.keyset.filled := by
  obtain ⟨r, hr, hmap⟩ := Option.map_eq_some_iff.mp h
  obtain ⟨r', rfl, rfl⟩ := Option.map_eq_some_iff.mp hmap
  rcases resolve_eq_some hr with ⟨-, hnone⟩ | ⟨n, a, rfl, ha, hsome⟩
  · exact absurd hnone (by simp)
  · obtain rfl := Option.some.inj hsome
    exact ⟨n, r', rfl, ha, rfl⟩

/-- A handle of a keyset that a pointer points to is one of those that objects point to. -/
theorem owned_of_slot {n : Nat} {r : Registered PKey} (hr : P.keyset n = some r) {k : Slot PKey}
    (hk : k ∈ r.keyset.filled) {i : Nat} (hi : k.pkeyOf = some i) :
    Owned.keyset n (.pkey i) ∈ P.owned := by
  obtain ⟨c, hobject, hdata, -⟩ := Pools.keyset_eq_some hr
  obtain ⟨hmem, rfl, -⟩ := Pools.object_eq_some hobject
  refine List.mem_flatMap.mpr ⟨c, hmem, ?_⟩
  rw [PoolCleanup.owned, hdata]
  exact List.mem_map_of_mem (List.mem_filterMap.mpr ⟨k, hk, by rw [hi]; rfl⟩)

/-- A verification uses handles of the keyset that it is given. -/
theorem inCustody_uses (h : InCustody P tr) {jwks : Option Nat}
    {keys : Option (List (Slot PKey))} (hkeys : P.slots jwks = some keys) {β : Type}
    {x : Traced (Option Nat) β} (hnone : keys = none → x.events = [])
    (honly : ∀ cs, keys = some cs → Only (fun h => ∃ k ∈ cs, k.pkeyOf = h) x) :
    InCustody P.next (tr ++ (usesOf jwks x).events) := by
  refine inCustody_read h ?_
  intro i hi
  cases keys with
  | none =>
    rw [hnone rfl] at hi
    exact absurd hi List.not_mem_nil
  | some cs =>
    obtain ⟨n, r, rfl, hr, rfl⟩ := slots_eq_some hkeys
    obtain ⟨k, hk, hki⟩ := honly _ rfl (some i) hi
    exact owned_of_slot (Pools.live_eq_some hr).1 hk hki

/-- What holds of the handles that the calls on a slot are given holds of all that are given. -/
theorem only_handles {β : Type} {P : Option Nat → Prop} {k : Slot PKey}
    {x : Traced (KeyCall PKey) β} (h : Only (fun call => ∀ i ∈ k.handles call, P i) x) :
    Only P (⟨x.val, x.events.flatMap k.handles⟩ : Traced (Option Nat) β) := by
  intro i hi
  obtain ⟨call, hcall, hmem⟩ := List.mem_flatMap.mp hi
  exact h call hcall i hmem

/-- A slot gives its own handle, and only if its key is not symmetric. -/
theorem handles_of_slot {P : Option Nat → Prop} {k : Slot PKey}
    (hp : k.key.kty ≠ .oct → P k.pkeyOf) :
    (k.key.kty ≠ .oct → ∀ i ∈ k.handles (.evp k.key.pkey), P i) ∧
      (k.key.kty = .oct → ∀ i ∈ k.handles (.hmac k.key.hmacSecret), P i) := by
  refine ⟨?_, fun _ i hi => absurd hi List.not_mem_nil⟩
  intro hk i hi
  obtain rfl := List.mem_singleton.mp hi
  exact hp hk

theorem only_slotTrial {P : Option Nat → Prop} {k : Slot PKey}
    (hp : k.key.kty ≠ .oct → P k.pkeyOf) (alg : Alg) (msg sig : Bytes) :
    Only P (slotTrial E k alg msg sig) :=
  only_handles (only_verifyWithKey (handles_of_slot hp).1 (handles_of_slot hp).2 alg msg sig)

theorem only_slotRaw {P : Option Nat → Prop} {k : Slot PKey}
    (hp : k.key.kty ≠ .oct → P k.pkeyOf) (algStr : Option Bytes) (msg sig : Bytes) :
    Only P (slotRaw E k algStr msg sig) :=
  only_handles (only_verifyRawWithKey (handles_of_slot hp).1 (handles_of_slot hp).2 algStr msg sig)

/-- **Every call keeps the invariant.** -/
theorem inCustody_step (h : InCustody P tr) {c : PoolCall}
    {x : Traced PoolEvent (Pools PKey × Answer)} (hx : step E P c = some x) :
    InCustody x.val.1 (tr ++ x.events) := by
  cases c with
  | createPool =>
    obtain rfl := Option.some.inj hx
    rw [events_pure, List.append_nil]
    exact inCustody_create h
  | destroyPool pool =>
    obtain ⟨_, -, rfl⟩ := Option.map_eq_some_iff.mp hx
    rw [events_bind, events_pure, List.append_nil]
    exact inCustody_destroy h pool
  | decode left f tokenStr pool =>
    obtain ⟨pool', hpool, rfl⟩ := Option.map_eq_some_iff.mp hx
    rw [events_bind, events_pure, List.append_nil]
    exact inCustody_decoded h hpool left f tokenStr
  | jwksParse L F jwksJson pool =>
    obtain ⟨pool', hpool, rfl⟩ := Option.map_eq_some_iff.mp hx
    obtain ⟨hmem, hnone⟩ := mem_of_resolve hpool
    refine inCustody_parsed h hmem (goes_jwksParse jwksJson pool') ?_
    intro hp
    rw [hnone hp]
    rfl
  | jwksParseKeyval F keyvalJson pool =>
    obtain ⟨pool', hpool, rfl⟩ := Option.map_eq_some_iff.mp hx
    obtain ⟨hmem, hnone⟩ := mem_of_resolve hpool
    refine inCustody_parsed h hmem (goes_keyvalParse keyvalJson pool') ?_
    intro hp
    rw [hnone hp]
    rfl
  | jwksFree jwks =>
    cases jwks with
    | none =>
      obtain rfl := Option.some.inj hx
      show InCustody P.next (tr ++ ([] : List (Option Nat)).map (PoolEvent.use 0))
      exact inCustody_read h (by simp)
    | some n =>
      obtain ⟨r, hr, rfl⟩ := Option.map_eq_some_iff.mp hx
      rw [events_bind, events_pure, List.append_nil]
      exact inCustody_free h hr
  | jwsVerify token jwks pool =>
    obtain ⟨token', -, hx⟩ := Option.bind_eq_some_iff.mp hx
    obtain ⟨keys, hkeys, hx⟩ := Option.bind_eq_some_iff.mp hx
    obtain ⟨pool', -, hx⟩ := Option.bind_eq_some_iff.mp hx
    obtain rfl := Option.some.inj hx
    rw [events_bind, events_pure, List.append_nil]
    refine inCustody_uses h hkeys ?_ ?_
    · rintro rfl
      unfold jwsVerifyTraced
      cases token' <;> rfl
    · rintro cs rfl
      exact only_jwsVerifyTraced
        (fun k hk alg msg sig => only_slotTrial (fun _ => ⟨k, hk, rfl⟩) alg msg sig) token' pool'
  | jwksVerifyRaw jwks keyid algStr msg sig pool =>
    obtain ⟨keys, hkeys, hx⟩ := Option.bind_eq_some_iff.mp hx
    obtain ⟨pool', -, hx⟩ := Option.bind_eq_some_iff.mp hx
    obtain rfl := Option.some.inj hx
    rw [events_bind, events_pure, List.append_nil]
    refine inCustody_uses h hkeys ?_ ?_
    · rintro rfl
      rfl
    · rintro cs rfl
      exact only_jwksVerifyRawTraced
        (fun k hk algStr msg sig => only_slotRaw (fun _ => ⟨k, hk, rfl⟩) algStr msg sig) _ _ _ _ _
  | jwksVerifyRawByKid jwks kid algStr msg sig pool =>
    obtain ⟨keys, hkeys, hx⟩ := Option.bind_eq_some_iff.mp hx
    obtain ⟨pool', -, hx⟩ := Option.bind_eq_some_iff.mp hx
    obtain rfl := Option.some.inj hx
    rw [events_bind, events_pure, List.append_nil]
    refine inCustody_uses h hkeys ?_ ?_
    · rintro rfl
      rfl
    · rintro cs rfl
      exact only_jwksVerifyRawByKidTraced
        (fun k hk algStr msg sig => only_slotRaw (fun _ => ⟨k, hk, rfl⟩) algStr msg sig) _ _ _ _ _

end Step

/-! ## 5. Every run -/

section Runs

variable {E : Env PKey} {calls : List PoolCall} {P : Pools PKey} {tr : List PoolEvent}
  {answers : List Answer}

theorem inCustody_run (run : PoolRun E calls P tr answers) : InCustody P tr := by
  induction run with
  | start => exact inCustody_start
  | call _ step ih => exact inCustody_step ih step

/-- **No leak and no double free, in any run.**  Each JSON root and each handle that any call made
is freed exactly once by now, or it was made and not freed and an object in a pool that is there
points to it.  So when no pool is left, everything is freed. -/
theorem pools_in_custody (run : PoolRun E calls P tr answers) :
    (∀ o, (o ∉ P.owned ∧ Settled o (entries (acts tr))) ∨
      (about o (entries (acts tr)) = [.acquire o] ∧
        ∃ c ∈ P.cleanups, o ∈ c.owned ∧ c.pool ∈ P.pools)) ∧
    (P.pools = [] → ∀ o, Settled o (entries (acts tr))) := by
  have h := inCustody_run run
  have hwhere : ∀ o, (o ∉ P.owned ∧ Settled o (entries (acts tr))) ∨
      (about o (entries (acts tr)) = [.acquire o] ∧
        ∃ c ∈ P.cleanups, o ∈ c.owned ∧ c.pool ∈ P.pools) := by
    intro o
    by_cases ho : o ∈ P.owned
    · obtain ⟨c, hc, hoc⟩ := List.mem_flatMap.mp ho
      exact .inr ⟨h.custody.holds.opened o ho, c, hc, hoc, h.alive c hc⟩
    · exact .inl ⟨ho, h.custody.holds.settled o ho⟩
  refine ⟨hwhere, ?_⟩
  intro hpools o
  rcases hwhere o with ⟨-, hsettled⟩ | ⟨-, c, -, -, hpool⟩
  · exact hsettled
  · rw [hpools] at hpool
    exact absurd hpool List.not_mem_nil

/-- A handle that a verification gives to OpenSSL was made before that, once, and not freed by
then. -/
theorem usedInTime_run (run : PoolRun E calls P tr answers) : UsedInTime (acts tr) :=
  (inCustody_run run).custody.inTime

end Runs

/-- Two pools: a keyset in the first and a token in the second, which is verified; the keyset is
freed, and once more; the pools are destroyed. -/
def poolStory : List PoolCall :=
  [ .createPool, .createPool,
    .jwksParse noLeftovers noParseFaults (some edJwks.1) (some 0),
    .decode (fun _ => []) noDecodeFaults (some edToken) (some 1),
    .jwsVerify (some 3) (some 2) (some 1), .jwksFree (some 2), .jwksFree (some 2),
    .destroyPool 1, .destroyPool 0 ]

/-- Its books: the handle is used twice, for its type and for the signature. -/
def poolStoryActs : List (Act Owned) :=
  [ .enter (.acquire (.keyset 2 .root)), .enter (.acquire (.keyset 2 (.pkey 0))),
    .enter (.release (.keyset 2 .root)), .enter (.acquire (.token 3 .header)),
    .enter (.acquire (.token 3 .payload)), .use (.keyset 2 (.pkey 0)),
    .use (.keyset 2 (.pkey 0)), .enter (.release (.keyset 2 (.pkey 0))),
    .enter (.release (.token 3 .header)), .enter (.release (.token 3 .payload)) ]

/-- The story can be performed. -/
theorem perform_poolStory :
    ∃ y, perform (edFacts []).env .start poolStory = some y ∧ y.val.1.pools = [] ∧
      acts y.events = poolStoryActs ∧
      y.val.2 = [.nothing, .nothing, .returned false, .returned false, .verified ⟨.ok, false⟩,
        .nothing, .nothing, .nothing, .nothing] := by
  have h : ((perform (edFacts []).env .start poolStory).map fun y =>
      (y.val.1.pools, acts y.events, y.val.2)) =
      some ([], poolStoryActs, [.nothing, .nothing, .returned false, .returned false,
        .verified ⟨.ok, false⟩, .nothing, .nothing, .nothing, .nothing]) := by
    decide +kernel
  obtain ⟨y, hy, heq⟩ := Option.map_eq_some_iff.mp h
  obtain ⟨hpools, hacts⟩ := Prod.mk.inj heq
  obtain ⟨hacts, hanswers⟩ := Prod.mk.inj hacts
  exact ⟨y, hy, hpools, hacts, hanswers⟩

theorem pools_in_custody_poolStory :
    Settled (.keyset 2 .root) (entries poolStoryActs) ∧
      Settled (.keyset 2 (.pkey 0)) (entries poolStoryActs) ∧
      Settled (.token 3 .header) (entries poolStoryActs) ∧
      Settled (.token 3 .payload) (entries poolStoryActs) := by
  obtain ⟨y, hy, hpools, hacts, -⟩ := perform_poolStory
  have h := (pools_in_custody (poolRun_of_perform hy)).2 hpools
  rw [hacts] at h
  exact ⟨h _, h _, h _, h _⟩

end NxeJwx

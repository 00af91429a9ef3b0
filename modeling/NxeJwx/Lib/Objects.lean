/-
# Objects that a function makes for itself

A function in C makes objects, keeps pointers to them in its variables, hands some over to other
objects, and frees the rest before it returns.  The books of a run say which objects were made and
freed; an object that was handed over is freed with its owner.

`At` is what such a function maintains: its variables hold what the books say is open, next to what
its callers hold.  Each statement has a rule (`triple_new`, `triple_give`, `triple_free`), a call of
another function too (`triple_call`); a plain `return` is allowed where nothing is held
(`At.returned`), and a label that frees variables which may be NULL from everywhere (`At.label`).
A function that obeys the rules is `Balanced`: whatever it made is freed once, apart from what it
hands to its caller.
-/
import NxeJwx.Lib.Custody
import NxeJwx.Lib.SharedTail

namespace Objects

open Ledger SharedTail

/-! ## 1. Books -/

/-- An object, with the objects that are freed with it. -/
structure Obj where
  id : Nat
  owned : List Nat

/-- What freeing the object frees. -/
def Obj.nodes (o : Obj) : List Nat := o.id :: o.owned

/-- What freeing a pointer frees; NULL is allowed. -/
def nodesOf (o : Option Obj) : List Nat := o.elim [] Obj.nodes

@[simp] theorem nodesOf_none : nodesOf none = [] := rfl

@[simp] theorem nodesOf_some (o : Obj) : nodesOf (some o) = o.nodes := rfl

/-- What was made and freed so far, and the next name. -/
structure Books where
  next : Nat
  log : List (Entry Nat)

/-- Nothing happened yet. -/
def Books.empty : Books := ⟨0, []⟩

/-- An object is made. -/
def Books.make (B : Books) : Obj × Books :=
  (⟨B.next, []⟩, ⟨B.next + 1, B.log ++ [.acquire B.next]⟩)

/-- A pointer is freed. -/
def Books.drop (B : Books) (o : Option Obj) : Books :=
  { B with log := B.log ++ (nodesOf o).map .release }

/-- The books are in order, and `ns` is open. -/
structure Sound (B : Books) (ns : List Nat) : Prop where
  holds : Holds B.log ns
  fresh : ∀ e ∈ B.log, e.resource < B.next

theorem sound_empty : Sound .empty [] := ⟨holds_nil, fun _ h => absurd h List.not_mem_nil⟩

variable {B : Books} {ns ns' : List Nat} {o : Option Obj}

theorem Sound.perm (h : Sound B ns) (hp : ns.Perm ns') : Sound B ns' :=
  ⟨h.holds.perm hp, h.fresh⟩

theorem Sound.make (h : Sound B ns) : Sound B.make.2 (B.next :: ns) := by
  have hnew : about B.next B.log = [] := about_eq_nil fun e he => Nat.ne_of_lt (h.fresh e he)
  refine ⟨(h.holds.acquire hnew).perm (List.perm_append_singleton ..), ?_⟩
  intro e he
  rcases List.mem_append.mp he with he | he
  · exact Nat.lt_succ_of_lt (h.fresh e he)
  · obtain rfl := List.mem_singleton.mp he
    exact Nat.lt_succ_self B.next

theorem Sound.drop (h : Sound B (nodesOf o ++ ns)) : Sound (B.drop o) ns := by
  refine ⟨h.holds.releaseFirst, ?_⟩
  intro e he
  rcases List.mem_append.mp he with he | he
  · exact h.fresh e he
  · obtain ⟨n, hn, rfl⟩ := List.mem_map.mp he
    have hopen := h.holds.opened n (List.mem_append_left _ hn)
    have hmem : Entry.acquire n ∈ about n B.log := by
      rw [hopen]
      exact List.mem_singleton_self _
    exact h.fresh (.acquire n) (List.mem_of_mem_filter hmem)

/-- When nothing is open, every object was freed once or never made. -/
theorem Sound.settled (h : Sound B []) (n : Nat) : Settled n B.log := h.holds.settled_all n

/-! ## 2. Functions -/

/-- What a function leaves behind: its result, the object it hands to the caller, the books. -/
structure Done (α : Type) where
  val : α
  handed : Option Obj
  books : Books

/-- Whatever the function made is freed, apart from what it hands to its caller. -/
structure Balanced {α : Type} (g : Books → Done α) : Prop where
  keeps : ∀ B ns, Sound B ns → Sound (g B).books (nodesOf (g B).handed ++ ns)

/-- A function that hands nothing to its caller settles everything it made. -/
theorem Balanced.settled {α : Type} {g : Books → Done α} (h : Balanced g)
    (hnone : (g .empty).handed = none) (n : Nat) : Settled n (g .empty).books.log := by
  have hsound := h.keeps .empty [] sound_empty
  rw [hnone] at hsound
  exact hsound.settled n

/-- A balanced function whose result goes with what it hands to its caller. -/
structure Hands {α : Type} (P : α → Option Obj → Prop) (g : Books → Done α) : Prop
    extends Balanced g where
  hands : ∀ B ns, Sound B ns → P (g B).val (g B).handed

/-- A result that is missing goes with NULL. -/
def NullWith {α : Type} (a : Option α) (o : Option Obj) : Prop := a = none → o = none

/-- The variables of a function, and the books. -/
structure Frame (ν : Type) where
  books : Books
  var : ν → Option Obj

/-- A function begins with every variable NULL. -/
def Frame.enter (ν : Type) (B : Books) : Frame ν := ⟨B, fun _ => none⟩

/-- The code before the label, or without one. -/
abbrev Code (ν ρ α : Type) := Body (Frame ν) ρ α

section Statements

variable {ν ρ α : Type}

/-- The variable is assigned. -/
def Frame.set [DecidableEq ν] (s : Frame ν) (x : ν) (o : Option Obj) : Frame ν :=
  { s with var := Function.update s.var x o }

/-- The variable is assigned a new object, or NULL. -/
def Frame.make [DecidableEq ν] (s : Frame ν) (x : ν) (fault : Bool) : Frame ν :=
  if fault then s.set x none
  else { s.set x (some s.books.make.1) with books := s.books.make.2 }

/-- `x = X_new()`, which may fail. -/
def new [DecidableEq ν] (x : ν) (fault : Bool) : Code ν ρ PUnit := .assign fun s => s.make x fault

/-- `x = g(..)`. -/
def call [DecidableEq ν] (x : ν) (g : Books → Done α) : Code ν ρ α := fun s =>
  (.next (g s.books).val, { s.set x (g s.books).handed with books := (g s.books).books })

/-- A call of a function that hands nothing back. -/
def visit (g : Books → Done α) : Code ν ρ α := fun s =>
  (.next (g s.books).val, { s with books := (g s.books).books })

/-- `X_free(x)`. -/
def free (x : ν) : Code ν ρ PUnit := .assign fun s => { s with books := s.books.drop (s.var x) }

/-- `y` owns the object of `x` from now on; the variable still points to it. -/
def give [DecidableEq ν] (x y : ν) : Code ν ρ PUnit := .assign fun s =>
  s.set y ((s.var y).map fun o => { o with owned := o.owned ++ nodesOf (s.var x) })

/-- `y = x`; only `y` is used from then on. -/
def move [DecidableEq ν] (x y : ν) : Code ν ρ PUnit := .assign fun s => s.set y (s.var x)

/-- `x = NULL`. -/
def clear [DecidableEq ν] (x : ν) : Code ν ρ PUnit := .assign fun s => s.set x none

/-- `if (x == NULL) goto out;`. -/
def orJump (x : ν) (r : ρ) : Code ν ρ PUnit := fun s =>
  if (s.var x).isNone then (.jump r, s) else (.next ⟨⟩, s)

/-- `if (x == NULL) return r;`. -/
def orRet (x : ν) (r : ρ) : Code ν ρ PUnit := fun s =>
  if (s.var x).isNone then (.ret r, s) else (.next ⟨⟩, s)

/-- `if (x == NULL || y == NULL) c`, for the variables of `xs`. -/
def ifNull (xs : List ν) (c : Code ν ρ PUnit) : Code ν ρ PUnit := fun s =>
  if xs.any fun x => (s.var x).isNone then c s else (.next ⟨⟩, s)

/-- `if (failed) goto out;`. -/
def jumpIf (failed : Bool) (r : ρ) : Code ν ρ PUnit := if failed then .jump r else pure ⟨⟩

/-- The frees at a label, in order. -/
def Frame.freeAll (s : Frame ν) (xs : List ν) : Books :=
  xs.foldl (fun B x => B.drop (s.var x)) s.books

/-- What the variables hold. -/
def Frame.heldBy (s : Frame ν) (vs : List ν) : List Nat := vs.flatMap fun x => nodesOf (s.var x)

/-! ## 3. What a function maintains -/

/-- The variables of `vs` hold what is open, next to `outer`; those of `stale` point to what is
freed or owned by another object; the others are NULL.  The variables of `ys` are not NULL. -/
structure At (outer : List Nat) (vs stale ys : List ν) (s : Frame ν) : Prop where
  sound : Sound s.books (s.heldBy vs ++ outer)
  nodup : vs.Nodup
  null : ∀ x, x ∉ vs → x ∉ stale → s.var x = none
  some : ∀ y ∈ ys, (s.var y).isSome = true

variable {outer : List Nat} {vs stale ys : List ν} {s : Frame ν} {x y : ν}

theorem at_enter (h : Sound B outer) : At outer ([] : List ν) [] [] (.enter ν B) where
  sound := h
  nodup := .nil
  null _ _ _ := rfl
  some _ h := absurd h List.not_mem_nil

@[simp] theorem var_set_same [DecidableEq ν] (s : Frame ν) (x : ν) (o : Option Obj) :
    (s.set x o).var x = o :=
  Function.update_self ..

theorem var_set_other [DecidableEq ν] {x z : ν} (h : z ≠ x) (s : Frame ν) (o : Option Obj) :
    (s.set x o).var z = s.var z :=
  Function.update_of_ne h ..

/-- Variables that are not assigned hold what they held. -/
theorem heldBy_set [DecidableEq ν] (hx : x ∉ vs) (s : Frame ν) (o : Option Obj) :
    (s.set x o).heldBy vs = s.heldBy vs :=
  List.flatMap_congr fun z hz => by rw [var_set_other (ne_of_mem_of_not_mem hz hx)]

theorem heldBy_cons (s : Frame ν) (x : ν) (vs : List ν) :
    s.heldBy (x :: vs) = nodesOf (s.var x) ++ s.heldBy vs := rfl

/-- One variable first. -/
theorem heldBy_perm [DecidableEq ν] (s : Frame ν) (hx : x ∈ vs) :
    (s.heldBy vs).Perm (nodesOf (s.var x) ++ s.heldBy (vs.erase x)) :=
  (List.perm_cons_erase hx).flatMap_right _

theorem At.not_mem_ys (h : At outer vs stale ys s) (hx : s.var x = none) : x ∉ ys := by
  intro hy
  have hsome := h.some x hy
  rw [hx] at hsome
  exact Bool.noConfusion hsome

/-- A variable that is NULL takes an object. -/
theorem At.assigned [DecidableEq ν] (h : At outer vs stale ys s) (hx : x ∉ vs) (hs : x ∉ stale)
    {B : Books} {o : Option Obj} (hB : Sound B (nodesOf o ++ (s.heldBy vs ++ outer))) :
    At outer (x :: vs) stale ys { s.set x o with books := B } where
  sound := by
    rw [heldBy_cons, List.append_assoc]
    show Sound B (nodesOf ((s.set x o).var x) ++ ((s.set x o).heldBy vs ++ outer))
    rwa [var_set_same, heldBy_set hx]
  nodup := List.nodup_cons.mpr ⟨hx, h.nodup⟩
  null z hz hz' := by
    rw [List.mem_cons, not_or] at hz
    exact (var_set_other hz.1 ..).trans (h.null z hz.2 hz')
  some z hz := by
    have hne : z ≠ x := fun e => h.not_mem_ys (h.null x hx hs) (e ▸ hz)
    exact (congrArg Option.isSome (var_set_other hne ..)).trans (h.some z hz)

variable {ret jump : ρ → Frame ν → Prop}

theorem triple_new [DecidableEq ν] {fault : Bool} (hx : x ∉ vs) (hs : x ∉ stale) :
    Triple (At outer vs stale ys) (new x fault : Code ν ρ PUnit)
      (fun _ => At outer (x :: vs) stale ys) ret jump := by
  intro s h
  show At outer (x :: vs) stale ys (s.make x fault)
  unfold Frame.make
  cases fault with
  | true => exact h.assigned (B := s.books) hx hs (o := none) h.sound
  | false => exact h.assigned hx hs (o := some s.books.make.1) h.sound.make

/-- A call that failed left NULL. -/
theorem triple_new_null [DecidableEq ν] {fault : Bool} (hx : x ∉ vs) (hs : x ∉ stale) :
    Triple (At outer vs stale ys) (new x fault : Code ν ρ PUnit)
      (fun _ s => At outer (x :: vs) stale ys s ∧ (fault = true → s.var x = none)) ret jump := by
  intro s h
  have hnew : Triple (At outer vs stale ys) (new x fault : Code ν ρ PUnit)
      (fun _ => At outer (x :: vs) stale ys) ret jump := triple_new hx hs
  refine ⟨hnew s h, ?_⟩
  rintro rfl
  exact var_set_same ..

theorem triple_call [DecidableEq ν] {g : Books → Done α} (hg : Balanced g) (hx : x ∉ vs)
    (hs : x ∉ stale) :
    Triple (At outer vs stale ys) (call x g : Code ν ρ α)
      (fun _ => At outer (x :: vs) stale ys) ret jump :=
  fun s h => h.assigned hx hs (hg.keeps s.books _ h.sound)

theorem triple_call_hands [DecidableEq ν] {P : α → Option Obj → Prop} {g : Books → Done α}
    (hg : Hands P g) (hx : x ∉ vs) (hs : x ∉ stale) :
    Triple (At outer vs stale ys) (call x g : Code ν ρ α)
      (fun a s => At outer (x :: vs) stale ys s ∧ P a (s.var x)) ret jump := by
  intro s h
  have hcall : Triple (At outer vs stale ys) (call x g : Code ν ρ α)
      (fun _ => At outer (x :: vs) stale ys) ret jump := triple_call hg.toBalanced hx hs
  refine ⟨hcall s h, ?_⟩
  show P (g s.books).val ((s.set x (g s.books).handed).var x)
  rw [var_set_same]
  exact hg.hands s.books _ h.sound

theorem triple_visit {g : Books → Done α} (hg : Balanced g) (hnone : ∀ B, (g B).handed = none) :
    Triple (At outer vs stale ys) (visit g : Code ν ρ α) (fun _ => At outer vs stale ys) ret
      jump := by
  intro s h
  have hsound := hg.keeps s.books _ h.sound
  rw [hnone, nodesOf_none, List.nil_append] at hsound
  exact ⟨hsound, h.nodup, h.null, h.some⟩

theorem triple_free [DecidableEq ν] (hx : x ∈ vs) :
    Triple (At outer vs stale ys) (free x : Code ν ρ PUnit)
      (fun _ => At outer (vs.erase x) (x :: stale) ys) ret jump := by
  intro s h
  have hsound := h.sound.perm ((heldBy_perm s hx).append_right outer)
  rw [List.append_assoc] at hsound
  refine ⟨hsound.drop, h.nodup.erase x, ?_, h.some⟩
  intro z hz hz'
  rw [List.mem_cons, not_or] at hz'
  exact h.null z (fun hmem => hz ((List.mem_erase_of_ne hz'.1).mpr hmem)) hz'.2

/-- Freeing changes no variable. -/
theorem triple_free_keeping [DecidableEq ν] (Q : (ν → Option Obj) → Prop) (hx : x ∈ vs) :
    Triple (fun s => At outer vs stale ys s ∧ Q s.var) (free x : Code ν ρ PUnit)
      (fun _ s => At outer (vs.erase x) (x :: stale) ys s ∧ Q s.var) ret jump := by
  intro s h
  have hfree : Triple (At outer vs stale ys) (free x : Code ν ρ PUnit)
      (fun _ => At outer (vs.erase x) (x :: stale) ys) ret jump := triple_free hx
  exact ⟨hfree s h.1, h.2⟩

/-- Freeing NULL does nothing. -/
theorem triple_free_null (hx : x ∉ vs) (hs : x ∉ stale) :
    Triple (At outer vs stale ys) (free x : Code ν ρ PUnit)
      (fun _ => At outer vs stale ys) ret jump := by
  intro s h
  have hdrop : s.books.drop (s.var x) = s.books := by
    rw [h.null x hx hs, Books.drop, nodesOf_none, List.map_nil, List.append_nil]
  show At outer vs stale ys { s with books := s.books.drop (s.var x) }
  rw [hdrop]
  exact h

/-- The new owner holds both objects. -/
theorem triple_give [DecidableEq ν] (hx : x ∈ vs) (hy : y ∈ ys) (hyvs : y ∈ vs) (hxy : x ≠ y) :
    Triple (At outer vs stale ys) (give x y : Code ν ρ PUnit)
      (fun _ => At outer (vs.erase x) (x :: stale) ys) ret jump := by
  intro s h
  obtain ⟨o, ho⟩ := Option.isSome_iff_exists.mp (h.some y hy)
  have hyx : y ∈ vs.erase x := (List.mem_erase_of_ne hxy.symm).mpr hyvs
  have hnot : y ∉ (vs.erase x).erase y := (h.nodup.erase x).not_mem_erase
  set s' := s.set y ((s.var y).map fun o => { o with owned := o.owned ++ nodesOf (s.var x) })
    with hs'
  have hvar : s'.var y = some { o with owned := o.owned ++ nodesOf (s.var x) } := by
    rw [hs', var_set_same, ho]
    rfl
  have hheld : (s.heldBy vs).Perm (s'.heldBy (vs.erase x)) := by
    refine (heldBy_perm s hx).trans (.trans ?_ (heldBy_perm s' hyx).symm)
    rw [hvar, hs', heldBy_set hnot]
    refine ((heldBy_perm s hyx).append_left (nodesOf (s.var x))).trans ?_
    rw [ho, ← List.append_assoc]
    refine List.Perm.append_right _ ?_
    exact List.perm_append_comm
  refine ⟨h.sound.perm (hheld.append_right outer), h.nodup.erase x, ?_, ?_⟩
  · intro z hz hz'
    rw [List.mem_cons, not_or] at hz'
    have hzy : z ≠ y := fun e => hz (e ▸ hyx)
    exact (var_set_other hzy ..).trans
      (h.null z (fun hmem => hz ((List.mem_erase_of_ne hz'.1).mpr hmem)) hz'.2)
  · intro z hz
    by_cases hzy : z = y
    · subst hzy
      exact hvar ▸ rfl
    · exact (congrArg Option.isSome (var_set_other hzy ..)).trans (h.some z hz)

/-- The object moves on to another variable. -/
theorem triple_move [DecidableEq ν] (hx : x ∈ vs) (hy : y ∉ vs) (hs : y ∉ stale) :
    Triple (At outer vs stale ys) (move x y : Code ν ρ PUnit)
      (fun _ => At outer (y :: vs.erase x) (x :: stale) ys) ret jump := by
  intro s h
  have hyx : y ∉ vs.erase x := fun hmem => hy (List.mem_of_mem_erase hmem)
  refine ⟨?_, List.nodup_cons.mpr ⟨hyx, h.nodup.erase x⟩, ?_, ?_⟩
  · have hsound := h.sound.perm ((heldBy_perm s hx).append_right outer)
    rwa [heldBy_cons, var_set_same, heldBy_set hyx]
  · intro z hz hz'
    rw [List.mem_cons, not_or] at hz hz'
    refine (var_set_other hz.1 ..).trans (h.null z (fun hmem => hz.2 ?_) hz'.2)
    exact (List.mem_erase_of_ne hz'.1).mpr hmem
  · intro z hz
    have hne : z ≠ y := fun e => h.not_mem_ys (h.null y hy hs) (e ▸ hz)
    exact (congrArg Option.isSome (var_set_other hne ..)).trans (h.some z hz)

/-- A stale pointer is cleared. -/
theorem triple_clear [DecidableEq ν] (stale' ys' : List ν) (hx : x ∉ vs)
    (hstale : ∀ z ∈ stale, z = x ∨ z ∈ stale') (hys : ∀ z ∈ ys', z ∈ ys ∧ z ≠ x) :
    Triple (At outer vs stale ys) (clear x : Code ν ρ PUnit)
      (fun _ => At outer vs stale' ys') ret jump := by
  intro s h
  refine ⟨?_, h.nodup, ?_, ?_⟩
  · have hsound := h.sound
    rw [← heldBy_set hx s none] at hsound
    exact hsound
  · intro z hz hz'
    by_cases hzx : z = x
    · subst hzx
      exact var_set_same ..
    · refine (var_set_other hzx ..).trans (h.null z hz fun hs => ?_)
      exact (hstale z hs).elim hzx hz'
  · intro z hz
    exact (congrArg Option.isSome (var_set_other (hys z hz).2 ..)).trans (h.some z (hys z hz).1)

theorem triple_orJump {r : ρ} (hjump : ∀ s, At outer vs stale ys s → jump r s) :
    Triple (At outer vs stale ys) (orJump x r : Code ν ρ PUnit)
      (fun _ => At outer vs stale (x :: ys)) ret jump := by
  intro s h
  unfold orJump
  split
  · exact hjump s h
  next hsome =>
    refine ⟨h.sound, h.nodup, h.null, ?_⟩
    intro z hz
    rcases List.mem_cons.mp hz with rfl | hz
    · rwa [Bool.not_eq_true, Option.isNone_eq_false_iff] at hsome
    · exact h.some z hz

theorem triple_orRet {r : ρ} (hret : ∀ s, At outer vs stale ys s → s.var x = none → ret r s) :
    Triple (At outer vs stale ys) (orRet x r : Code ν ρ PUnit)
      (fun _ => At outer vs stale (x :: ys)) ret jump := by
  intro s h
  unfold orRet
  split
  next hnone => exact hret s h (Option.isNone_iff_eq_none.mp hnone)
  next hsome =>
    refine ⟨h.sound, h.nodup, h.null, ?_⟩
    intro z hz
    rcases List.mem_cons.mp hz with rfl | hz
    · rwa [Bool.not_eq_true, Option.isNone_eq_false_iff] at hsome
    · exact h.some z hz

theorem triple_ifNull {xs : List ν} {c : Code ν ρ PUnit}
    (h : Triple (At outer vs stale ys) c (fun _ => At outer vs stale (xs ++ ys)) ret jump) :
    Triple (At outer vs stale ys) (ifNull xs c) (fun _ => At outer vs stale (xs ++ ys)) ret
      jump := by
  intro s hs
  unfold ifNull
  split
  · exact h s hs
  next hsome =>
    refine ⟨hs.sound, hs.nodup, hs.null, ?_⟩
    intro z hz
    rcases List.mem_append.mp hz with hz | hz
    · have hall := List.any_eq_false.mp (Bool.eq_false_iff.mpr hsome) z hz
      rwa [Bool.not_eq_true, Option.isNone_eq_false_iff] at hall
    · exact hs.some z hz

theorem triple_jumpIf {failed : Bool} {r : ρ} (hjump : ∀ s, At outer vs stale ys s → jump r s) :
    Triple (At outer vs stale ys) (jumpIf failed r : Code ν ρ PUnit)
      (fun _ => At outer vs stale ys) ret jump := by
  cases failed with
  | true => exact hjump
  | false => exact fun s h => h

/-! ## 4. Ways out -/

/-- A plain `return` is fine when no variable holds anything. -/
theorem At.returned (h : At outer [] stale ys s) : Sound s.books outer := h.sound

/-- So is one after the last object is freed. -/
theorem triple_freeRet [DecidableEq ν] {r : ρ} {next : PUnit → Frame ν → Prop} :
    Triple (At outer [x] stale ys) (do free x; .ret r : Code ν ρ PUnit) next
      (fun _ s => Sound s.books outer) jump := by
  refine Triple.bind (triple_free List.mem_cons_self) fun _ => Triple.leave ?_
  intro s h
  rw [List.erase_cons_head] at h
  exact h.returned

/-- A variable that is NULL holds nothing. -/
theorem At.dropNull [DecidableEq ν] (h : At outer vs stale ys s) (hx : x ∈ vs)
    (hnull : s.var x = none) :
    Sound s.books (s.heldBy (vs.erase x) ++ outer) := by
  have hsound := h.sound.perm ((heldBy_perm s hx).append_right outer)
  rwa [hnull, nodesOf_none, List.nil_append] at hsound

theorem sound_freeAll {xs : List ν} (h : Sound s.books (s.heldBy xs ++ ns)) :
    Sound (s.freeAll xs) ns := by
  unfold Frame.freeAll
  generalize hB : s.books = B at h ⊢
  clear hB
  induction xs generalizing B with
  | nil => exact h
  | cons x xs ih =>
    rw [heldBy_cons, List.append_assoc] at h
    exact ih _ h.drop

/-- The label frees what the variables hold, apart from what is kept. -/
theorem At.label [DecidableEq ν] (h : At outer vs stale ys s) {keep xs : List ν}
    (hsub : ∀ x ∈ vs, x ∈ xs ++ keep) (hstale : ∀ x ∈ stale, x ∉ xs ++ keep)
    (hnodup : (xs ++ keep).Nodup) : Sound (s.freeAll xs) (s.heldBy keep ++ outer) := by
  have hempty : s.heldBy ((xs ++ keep).filter fun x => !decide (x ∈ vs)) = [] := by
    refine List.flatMap_eq_nil_iff.mpr fun x hx => ?_
    have hx' : x ∉ vs := by simpa using (List.mem_filter.mp hx).2
    rw [h.null x hx' fun hs => hstale x hs (List.mem_filter.mp hx).1]
    rfl
  have hperm : (s.heldBy vs).Perm (s.heldBy (xs ++ keep)) := by
    have hsplit : ((xs ++ keep).filter (fun x => decide (x ∈ vs)) ++
        (xs ++ keep).filter fun x => !decide (x ∈ vs)).Perm (xs ++ keep) :=
      List.filter_append_perm ..
    have hsame : vs.Perm ((xs ++ keep).filter fun x => decide (x ∈ vs)) := by
      refine (List.perm_ext_iff_of_nodup h.nodup (hnodup.filter _)).mpr fun x => ?_
      rw [List.mem_filter, decide_eq_true_eq]
      exact ⟨fun hx => ⟨hsub x hx, hx⟩, fun hx => hx.2⟩
    refine (hsame.flatMap_right _).trans ?_
    have hall := hsplit.flatMap_right fun x => nodesOf (s.var x)
    rw [List.flatMap_append] at hall
    unfold Frame.heldBy at hempty
    rwa [hempty, List.append_nil] at hall
  refine sound_freeAll ?_
  have hsound := h.sound.perm (hperm.append_right outer)
  rwa [Frame.heldBy, List.flatMap_append, List.append_assoc] at hsound

/-- A plain `return x` is fine when no other variable holds anything. -/
theorem At.handed [DecidableEq ν] (h : At outer vs stale ys s) (hvs : ∀ y ∈ vs, y = x)
    (hx : x ∉ stale) : Sound s.books (nodesOf (s.var x) ++ outer) := by
  have hlabel : Sound (s.freeAll []) (s.heldBy [x] ++ outer) :=
    h.label (fun y hy => List.mem_singleton.mpr (hvs y hy))
      (fun y hy hyx => hx (List.mem_singleton.mp hyx ▸ hy)) (List.nodup_singleton x)
  rwa [heldBy_cons, List.append_assoc] at hlabel

/-- Where a jump to the label may happen. -/
def Held (outer : List Nat) (allowed : List ν) (s : Frame ν) : Prop :=
  ∃ vs stale ys, At outer vs stale ys s ∧ (∀ x ∈ vs, x ∈ allowed) ∧ ∀ x ∈ stale, x ∉ allowed

theorem At.held {allowed : List ν} (h : At outer vs stale ys s) (hsub : ∀ x ∈ vs, x ∈ allowed)
    (hstale : ∀ x ∈ stale, x ∉ allowed) : Held outer allowed s :=
  ⟨vs, stale, ys, h, hsub, hstale⟩

/-- A function with a label that frees the variables `xs`.  It hands `keep` to its caller from
there, and `back` from a plain `return`. -/
def withLabel (xs : List ν) (keep back : Option ν) (atReturn : ρ → α) (atLabel : Option ρ → α)
    (body : Code ν ρ PUnit) (B : Books) : Done α :=
  body.run (fun r s => ⟨atReturn r, back.bind s.var, s.books⟩)
    (fun r s => ⟨atLabel r, keep.bind s.var, s.freeAll xs⟩) (.enter ν B)

/-- A function that keeps no variable hands nothing to its caller. -/
theorem handed_withLabel (xs : List ν) (atReturn : ρ → α) (atLabel : Option ρ → α)
    (body : Code ν ρ PUnit) (B : Books) :
    (withLabel xs none none atReturn atLabel body B).handed = none := by
  unfold withLabel Body.run
  rcases body (.enter ν B) with ⟨_ | _ | _, s⟩ <;> rfl

/-- The rule of functions: nothing is held at a plain `return` apart from what it hands back, and
at the label only what it frees or keeps. -/
theorem balanced_withLabel [DecidableEq ν] {xs : List ν} {keep back : Option ν}
    {atReturn : ρ → α} {atLabel : Option ρ → α} {body : Code ν ρ PUnit}
    (hnodup : (xs ++ keep.toList).Nodup)
    (h : ∀ outer, Triple (At outer [] [] []) body (fun _ => Held outer (xs ++ keep.toList))
      (fun _ s => Sound s.books (nodesOf (back.bind s.var) ++ outer))
      fun _ => Held outer (xs ++ keep.toList)) :
    Balanced (withLabel xs keep back atReturn atLabel body) := by
  refine ⟨fun B ns hB => ?_⟩
  have hlabel : ∀ s, Held ns (xs ++ keep.toList) s →
      Sound (s.freeAll xs) (nodesOf (keep.bind s.var) ++ ns) := by
    rintro s ⟨vs, stale, ys, hat, hsub, hstale⟩
    have hsound := hat.label hsub hstale hnodup
    cases keep with
    | none => exact hsound
    | some x =>
      rw [Option.toList_some, heldBy_cons, List.append_assoc] at hsound
      exact hsound
  exact run_of_triple (fun d : Done α => Sound d.books (nodesOf d.handed ++ ns)) (h ns)
    (fun _ s hs => hs) (fun _ s hs => hlabel s hs) (fun s hs => hlabel s hs) (at_enter hB)

/-- The same rule, with what goes with the result on each way out. -/
theorem hands_withLabel [DecidableEq ν] {xs : List ν} {keep back : Option ν}
    {atReturn : ρ → α} {atLabel : Option ρ → α} {body : Code ν ρ PUnit}
    {P : α → Option Obj → Prop} (hnodup : (xs ++ keep.toList).Nodup)
    (h : ∀ outer, Triple (At outer [] [] []) body
      (fun _ s => Held outer (xs ++ keep.toList) s ∧ P (atLabel none) (keep.bind s.var))
      (fun r s => Sound s.books (nodesOf (back.bind s.var) ++ outer) ∧
        P (atReturn r) (back.bind s.var))
      fun r s => Held outer (xs ++ keep.toList) s ∧ P (atLabel (some r)) (keep.bind s.var)) :
    Hands P (withLabel xs keep back atReturn atLabel body) := by
  constructor
  · refine balanced_withLabel hnodup fun outer s hs => ?_
    have hend := h outer s hs
    rcases hrun : body s with ⟨_ | _ | _, s'⟩
    all_goals
      rw [hrun] at hend
      exact hend.1
  · intro B ns hB
    exact run_of_triple (fun d : Done α => P d.val d.handed) (h ns) (fun _ s hs => hs.2)
      (fun _ s hs => hs.2) (fun s hs => hs.2) (at_enter hB)

/-! ## 5. Results -/

section Results

variable {τ : Type} {atReturn : ρ → Frame ν → τ} {label : Option ρ → Frame ν → τ}

@[simp] theorem run_new [DecidableEq ν] (x : ν) (fault : Bool) (k : PUnit → Code ν ρ PUnit) :
    (new x fault >>= k).run atReturn label s = (k ⟨⟩).run atReturn label (s.make x fault) := rfl

@[simp] theorem run_free (x : ν) (k : PUnit → Code ν ρ PUnit) :
    (free x >>= k).run atReturn label s =
      (k ⟨⟩).run atReturn label { s with books := s.books.drop (s.var x) } := rfl

@[simp] theorem run_give [DecidableEq ν] (x y : ν) (k : PUnit → Code ν ρ PUnit) :
    (give x y >>= k).run atReturn label s = (k ⟨⟩).run atReturn label
      (s.set y ((s.var y).map fun o => { o with owned := o.owned ++ nodesOf (s.var x) })) := rfl

@[simp] theorem run_clear [DecidableEq ν] (x : ν) (k : PUnit → Code ν ρ PUnit) :
    (clear x >>= k).run atReturn label s = (k ⟨⟩).run atReturn label (s.set x none) := rfl

@[simp] theorem run_visit (g : Books → Done α) (k : α → Code ν ρ PUnit) :
    (visit g >>= k).run atReturn label s =
      (k (g s.books).val).run atReturn label { s with books := (g s.books).books } := rfl

theorem visit_bind {β : Type} (g : Books → Done α) (k : α → Code ν ρ β) (s : Frame ν) :
    (visit g >>= k) s = k (g s.books).val { s with books := (g s.books).books } := rfl

theorem call_bind {β : Type} [DecidableEq ν] (x : ν) (g : Books → Done α) (k : α → Code ν ρ β)
    (s : Frame ν) :
    (call x g >>= k) s =
      k (g s.books).val { s.set x (g s.books).handed with books := (g s.books).books } := rfl

@[simp] theorem run_call [DecidableEq ν] (x : ν) (g : Books → Done α)
    (k : α → Code ν ρ PUnit) :
    (call x g >>= k).run atReturn label s = (k (g s.books).val).run atReturn label
      { s.set x (g s.books).handed with books := (g s.books).books } := rfl

@[simp] theorem run_orJump (x : ν) (r : ρ) (k : PUnit → Code ν ρ PUnit) :
    (orJump x r >>= k).run atReturn label s =
      if (s.var x).isNone then label (some r) s else (k ⟨⟩).run atReturn label s := by
  cases h : (s.var x).isNone with
  | true => exact run_bind_jump (by rw [orJump, if_pos h])
  | false => exact run_bind_next (by rw [orJump, if_neg (by simp [h])])

@[simp] theorem run_orRet (x : ν) (r : ρ) (k : PUnit → Code ν ρ PUnit) :
    (orRet x r >>= k).run atReturn label s =
      if (s.var x).isNone then atReturn r s else (k ⟨⟩).run atReturn label s := by
  cases h : (s.var x).isNone with
  | true => exact run_bind_ret (by rw [orRet, if_pos h])
  | false => exact run_bind_next (by rw [orRet, if_neg (by simp [h])])

@[simp] theorem run_ifNull (xs : List ν) (c : Code ν ρ PUnit) (k : PUnit → Code ν ρ PUnit) :
    (ifNull xs c >>= k).run atReturn label s =
      if (xs.any fun x => (s.var x).isNone) then (c >>= k).run atReturn label s
      else (k ⟨⟩).run atReturn label s := by
  cases h : (xs.any fun x => (s.var x).isNone) with
  | true =>
    have hc : ifNull xs c s = c s := by rw [ifNull, if_pos h]
    show Body.run (Body.andThen _ k) atReturn label s = Body.run (Body.andThen c k) _ _ s
    simp only [Body.run, Body.andThen, hc]
  | false => exact run_bind_next (by rw [ifNull, if_neg (by simp [h])])

@[simp] theorem run_jumpIf (failed : Bool) (r : ρ) (k : PUnit → Code ν ρ PUnit) :
    (jumpIf failed r >>= k).run atReturn label s =
      if failed then label (some r) s else (k ⟨⟩).run atReturn label s := by
  cases failed <;> rfl

@[simp] theorem isNone_make_same [DecidableEq ν] (x : ν) (fault : Bool) :
    ((s.make x fault).var x).isNone = fault := by
  unfold Frame.make
  cases fault <;> simp

@[simp] theorem var_make_other [DecidableEq ν] {x z : ν} (h : z ≠ x) (fault : Bool) :
    (s.make x fault).var z = s.var z := by
  unfold Frame.make
  cases fault with
  | true => exact var_set_other h ..
  | false => exact var_set_other h ..

/-- The result of a function does not depend on the books. -/
theorem val_withLabel (xs : List ν) (keep back : Option ν) (onReturn : ρ → α)
    (onLabel : Option ρ → α) (body : Code ν ρ PUnit) (B : Books) :
    (withLabel xs keep back onReturn onLabel body B).val =
      body.run (fun r _ => onReturn r) (fun r _ => onLabel r) (.enter ν B) := by
  unfold withLabel Body.run
  rcases body (.enter ν B) with ⟨_ | _ | _, s⟩ <;> rfl

end Results

end Statements

/-! ## 6. Calls one after the other -/

section Parts

variable {β ι : Type} [DecidableEq ι] {name : β → ι} {log : β → List (Entry Nat)}
  {kept : β → List Nat}

/-- Functions that are run one after the other, each under names of its own: what each of them
keeps is held on top of what was held before. -/
theorem holds_parts (cs : List β) (hnodup : (cs.map name).Nodup)
    (hlog : ∀ c ∈ cs, Holds (log c) (kept c)) {tr : List (Entry (ι × Nat))}
    {open' : List (ι × Nat)} (htr : Holds tr open')
    (hnew : ∀ c ∈ cs, ∀ n, about (name c, n) tr = []) :
    Holds (tr ++ cs.flatMap fun c => (log c).map (Entry.map (Prod.mk (name c))))
      (open' ++ cs.flatMap fun c => (kept c).map (Prod.mk (name c))) := by
  induction cs generalizing tr open' with
  | nil => simpa using htr
  | cons c cs ih =>
    rw [List.map_cons] at hnodup
    obtain ⟨hc, hnodup⟩ := List.nodup_cons.mp hnodup
    rw [List.flatMap_cons, List.flatMap_cons, ← List.append_assoc, ← List.append_assoc]
    refine ih hnodup (fun c' hc' => hlog c' (List.mem_cons_of_mem c hc')) ?_ ?_
    · exact htr.append_renamed (fun a b h => (Prod.mk.inj h).2)
        (fun n => hnew c List.mem_cons_self n) (hlog c List.mem_cons_self)
    · intro c' hc' n
      rw [about_append, hnew c' (List.mem_cons_of_mem c hc') n, List.nil_append]
      refine about_map_other (fun m hm => ?_) _
      exact hc ((Prod.mk.inj hm).1 ▸ List.mem_map_of_mem hc')

/-- Functions that keep nothing settle everything. -/
theorem settled_parts {cs : List β} (hnodup : (cs.map name).Nodup)
    (hlog : ∀ c ∈ cs, Holds (log c) []) (o : ι × Nat) :
    Settled o (cs.flatMap fun c => (log c).map (Entry.map (Prod.mk (name c)))) := by
  have hholds := @holds_parts β ι _ name log (fun _ => []) cs hnodup hlog [] [] holds_nil
    fun _ _ _ => rfl
  have hnone : (cs.flatMap fun c => ([] : List Nat).map (Prod.mk (name c))) = [] :=
    List.flatMap_eq_nil_iff.mpr fun _ _ => rfl
  rw [hnone] at hholds
  exact hholds.settled_all o

end Parts

end Objects

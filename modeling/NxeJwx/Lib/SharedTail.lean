/-
# Functions that leave through a shared tail

A function with an `out:` label is left in three ways: by a plain `return` where it stands, by a
jump to the label, or by falling into the label at the end of its body.  The label releases what
the function holds and settles what the caller sees; a plain `return` skips it.

`Body` is the code before the label, over a state of locals and out parameters, with sequencing
as a monad.  `Triple` has a postcondition for each of the three ways out, and the rules below
take a body apart statement by statement (`Triple.bind`, `Triple.assign`, `Triple.leave`); what
the whole function establishes then follows from the three postconditions and from what the label
makes of them (`run_of_triple`).
-/
import Mathlib.Tactic.Common

universe u

namespace SharedTail

/-- How a statement ends: with a value for the next one, with a plain `return`, or with a jump to
the label.  The last two carry a reason. -/
inductive Flow (ρ α : Type u) where
  | next (a : α)
  | ret (r : ρ)
  | jump (r : ρ)

/-- The code before the label. -/
def Body (σ ρ α : Type u) : Type u := σ → Flow ρ α × σ

variable {σ ρ α β : Type u}

namespace Body

/-- What follows a statement runs only if the statement does not leave the body. -/
def andThen (x : Body σ ρ α) (f : α → Body σ ρ β) : Body σ ρ β := fun s =>
  match x s with
  | (.next a, s') => f a s'
  | (.ret r, s') => (.ret r, s')
  | (.jump r, s') => (.jump r, s')

instance : Monad (Body σ ρ) where
  pure a := fun s => (.next a, s)
  bind := andThen

/-- An assignment to locals or out parameters. -/
def assign (g : σ → σ) : Body σ ρ PUnit := fun s => (.next ⟨⟩, g s)

/-- What the locals and out parameters hold. -/
def read : Body σ ρ σ := fun s => (.next s, s)

/-- A plain `return`. -/
def ret (r : ρ) : Body σ ρ α := fun s => (.ret r, s)

/-- `goto out`. -/
def jump (r : ρ) : Body σ ρ α := fun s => (.jump r, s)

/-- The whole function: `atReturn` is what a plain `return` leaves behind, `label` what the label
does, which is given no reason when the body falls into it. -/
def run {τ : Type u} (body : Body σ ρ PUnit) (atReturn : ρ → σ → τ) (label : Option ρ → σ → τ)
    (s : σ) : τ :=
  match body s with
  | (.next _, s') => label none s'
  | (.ret r, s') => atReturn r s'
  | (.jump r, s') => label (some r) s'

end Body

/-! ## 1. Running -/

section Run

variable {τ : Type u} {atReturn : ρ → σ → τ} {label : Option ρ → σ → τ} {s : σ}

@[simp] theorem run_assign (g : σ → σ) (f : PUnit → Body σ ρ PUnit) :
    (Body.assign g >>= f).run atReturn label s = (f ⟨⟩).run atReturn label (g s) := rfl

@[simp] theorem run_assign_last (g : σ → σ) :
    (Body.assign g : Body σ ρ PUnit).run atReturn label s = label none (g s) := rfl

@[simp] theorem run_read (f : σ → Body σ ρ PUnit) :
    (Body.read >>= f).run atReturn label s = (f s).run atReturn label s := rfl

@[simp] theorem run_ret (r : ρ) :
    (Body.ret r : Body σ ρ PUnit).run atReturn label s = atReturn r s := rfl

@[simp] theorem run_jump (r : ρ) :
    (Body.jump r : Body σ ρ PUnit).run atReturn label s = label (some r) s := rfl

/-- A statement that goes on hands its value and its state to the rest. -/
theorem run_bind_next {x : Body σ ρ α} {f : α → Body σ ρ PUnit} {a : α} {s' : σ}
    (h : x s = (.next a, s')) :
    (x >>= f).run atReturn label s = (f a).run atReturn label s' := by
  show Body.run (Body.andThen x f) atReturn label s = _
  simp only [Body.run, Body.andThen, h]

/-- A statement that jumps skips the rest. -/
theorem run_bind_jump {x : Body σ ρ α} {f : α → Body σ ρ PUnit} {r : ρ} {s' : σ}
    (h : x s = (.jump r, s')) :
    (x >>= f).run atReturn label s = label (some r) s' := by
  show Body.run (Body.andThen x f) atReturn label s = _
  simp only [Body.run, Body.andThen, h]

/-- A statement that returns skips the rest and the label. -/
theorem run_bind_ret {x : Body σ ρ α} {f : α → Body σ ρ PUnit} {r : ρ} {s' : σ}
    (h : x s = (.ret r, s')) :
    (x >>= f).run atReturn label s = atReturn r s' := by
  show Body.run (Body.andThen x f) atReturn label s = _
  simp only [Body.run, Body.andThen, h]

theorem bind_next {x : Body σ ρ α} {f : α → Body σ ρ β} {a : α} {s' : σ}
    (h : x s = (.next a, s')) : (x >>= f) s = f a s' := by
  show Body.andThen x f s = _
  simp only [Body.andThen, h]

theorem bind_jump {x : Body σ ρ α} {f : α → Body σ ρ β} {r : ρ} {s' : σ}
    (h : x s = (.jump r, s')) : (x >>= f) s = (.jump r, s') := by
  show Body.andThen x f s = _
  simp only [Body.andThen, h]

end Run

/-! ## 2. Rules -/

/-- The postcondition of the way a statement ended. -/
def Holds (next : α → σ → Prop) (ret jump : ρ → σ → Prop) : Flow ρ α × σ → Prop
  | (.next a, s) => next a s
  | (.ret r, s) => ret r s
  | (.jump r, s) => jump r s

/-- From a state with `pre`, the statement ends in the postcondition of the way it ends. -/
def Triple (pre : σ → Prop) (x : Body σ ρ α) (next : α → σ → Prop) (ret jump : ρ → σ → Prop) :
    Prop :=
  ∀ s, pre s → Holds next ret jump (x s)

section Rules

variable {pre pre' : σ → Prop} {next : α → σ → Prop} {ret jump : ρ → σ → Prop}

theorem Triple.pure {a : α} (h : ∀ s, pre s → next a s) :
    Triple pre (Pure.pure a : Body σ ρ α) next ret jump := h

theorem Triple.bind {m : β → σ → Prop} {x : Body σ ρ β} {f : β → Body σ ρ α}
    (hx : Triple pre x m ret jump) (hf : ∀ b, Triple (m b) (f b) next ret jump) :
    Triple pre (x >>= f) next ret jump := by
  intro s hs
  have hmid := hx s hs
  show Holds next ret jump (Body.andThen x f s)
  unfold Body.andThen
  rcases hrun : x s with ⟨_ | _ | _, s'⟩
  · rw [hrun] at hmid
    exact hf _ s' hmid
  · rw [hrun] at hmid
    exact hmid
  · rw [hrun] at hmid
    exact hmid

/-- An assignment takes the states with `pre` to states with `mid`, from which the rest goes
on. -/
theorem Triple.assign (mid : σ → Prop) {g : σ → σ} {f : PUnit → Body σ ρ α}
    (hg : ∀ s, pre s → mid (g s)) (h : Triple mid (f ⟨⟩) next ret jump) :
    Triple pre (Body.assign g >>= f) next ret jump :=
  Triple.bind (m := fun _ => mid) hg fun _ => h

/-- An assignment at the end of the body. -/
theorem Triple.assign_last {g : σ → σ} {next : PUnit → σ → Prop}
    (hg : ∀ s, pre s → next ⟨⟩ (g s)) : Triple pre (Body.assign g) next ret jump := hg

/-- Reading changes nothing, and the rest knows what was read. -/
theorem Triple.read {f : σ → Body σ ρ α}
    (h : ∀ s, pre s → Triple (· = s) (f s) next ret jump) :
    Triple pre (Body.read >>= f) next ret jump :=
  Triple.bind (m := fun s s' => pre s ∧ s' = s) (fun _ hs => ⟨hs, rfl⟩)
    fun s s' hs => h s hs.1 s' hs.2

/-- A plain `return` owes its own postcondition only. -/
theorem Triple.leave {r : ρ} (h : ∀ s, pre s → ret r s) :
    Triple pre (Body.ret r : Body σ ρ α) next ret jump := h

/-- A jump owes what the label may rely on. -/
theorem Triple.goto {r : ρ} (h : ∀ s, pre s → jump r s) :
    Triple pre (Body.jump r : Body σ ρ α) next ret jump := h

/-- More may be known before, and less asked after. -/
theorem Triple.weaken {next' : α → σ → Prop} {ret' : ρ → σ → Prop} {x : Body σ ρ α}
    (h : Triple pre x next ret jump) (hpre : ∀ s, pre' s → pre s)
    (hnext : ∀ a s, next a s → next' a s) (hret : ∀ r s, ret r s → ret' r s) :
    Triple pre' x next' ret' jump := by
  intro s hs
  have hend := h s (hpre s hs)
  rcases hrun : x s with ⟨_ | _ | _, s'⟩
  · rw [hrun] at hend
    exact hnext _ s' hend
  · rw [hrun] at hend
    exact hret _ s' hend
  · rw [hrun] at hend
    exact hend

/-- What is known apart from the state may be used for the statement. -/
theorem Triple.assume {p : Prop} {x : Body σ ρ α} (h : p → Triple pre x next ret jump) :
    Triple (fun s => pre s ∧ p) x next ret jump :=
  fun s hs => h hs.2 s hs.1

/-- What a function establishes: the postcondition of a plain `return` must give it at once, the
two others through the label. -/
theorem run_of_triple {τ : Type u} (post : τ → Prop) {body : Body σ ρ PUnit}
    {next : PUnit → σ → Prop} {atReturn : ρ → σ → τ} {label : Option ρ → σ → τ}
    (h : Triple pre body next ret jump) (hret : ∀ r s, ret r s → post (atReturn r s))
    (hjump : ∀ r s, jump r s → post (label (some r) s))
    (hnext : ∀ s, next ⟨⟩ s → post (label none s)) {s : σ} (hs : pre s) :
    post (body.run atReturn label s) := by
  have hend := h s hs
  unfold Body.run
  rcases hrun : body s with ⟨_ | _ | _, s'⟩
  · rw [hrun] at hend
    exact hnext s' hend
  · rw [hrun] at hend
    exact hret _ s' hend
  · rw [hrun] at hend
    exact hjump _ s' hend

end Rules

end SharedTail

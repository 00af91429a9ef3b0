/-
# Bytes, return codes, strings and JSON values

The vocabulary every translation unit of the library shares: `ngx_str_t` as a list of
octets, the three return codes, the two ways the code compares strings, the size limits of
`nxe_jwx.h`, and the JSON values that `nxe-json` hands out.

A pointer that the code tests against `NULL` is an `Option`; one that it never tests is
not.  `ngx_str_t` arguments whose `data` is tested together with the pointer share one
`Option` with it.
-/
import Mathlib.Data.List.Basic
import Mathlib.Tactic.Common

namespace NxeJwx

/-- The contents of an `ngx_str_t`. -/
abbrev Bytes := List UInt8

/-- The bytes of a C string literal. -/
def ascii (s : String) : Bytes := s.toByteArray.data.toList

/-- `NGX_OK`, `NGX_ERROR`, `NGX_DECLINED`. -/
inductive Rc where
  | ok
  | error
  | declined
  deriving DecidableEq, Repr

/-- A return code together with the out parameter that `NGX_OK` fills. -/
inductive Ret (α : Type) where
  | ok (a : α)
  | error
  | declined
  deriving DecidableEq, Repr

/-- The memory pool.  This layer only asks whether the pointer is there. -/
structure Pool where
  deriving DecidableEq, Repr

/-! ## 1. Limits (`nxe_jwx.h`) -/

/-- `NXE_JWX_MAX_JWT_SIZE`. -/
def maxJwtSize : Nat := 16384

/-- `NXE_JWX_MAX_JWT_HEADER`. -/
def maxJwtHeader : Nat := 8192

/-- `NXE_JWX_MAX_JWKS_SIZE`. -/
def maxJwksSize : Nat := 262144

/-- `NXE_JWX_MAX_JWKS_KEYS`. -/
def maxJwksKeys : Nat := 64

/-- `NXE_JWX_MIN_RSA_BITS`. -/
def minRsaBits : Nat := 2048

/-- `NXE_JWX_MAX_RSA_BITS`. -/
def maxRsaBits : Nat := 16384

/-! ## 2. Comparing strings -/

/-- `nxe_jwx_str_eq`. -/
def strEq (a b : Bytes) : Bool :=
  if a.length ≠ b.length then false
  else if a.length = 0 then true
  else a == b

@[simp] theorem strEq_iff {a b : Bytes} : strEq a b = true ↔ a = b := by
  unfold strEq
  split
  · next h => exact ⟨fun h' => absurd h' (by simp), fun h' => absurd (by rw [h']) h⟩
  · next h =>
    split
    · next h0 =>
      have hb : b.length = 0 := by omega
      simp [List.length_eq_zero_iff.mp h0, List.length_eq_zero_iff.mp hb]
    · simp

/-- `ngx_strncmp(a, b, n) == 0`: no difference in the first `n` bytes, or none up to a
common terminator before that. -/
def strncmpEq : Nat → Bytes → Bytes → Bool
  | 0, _, _ => true
  | n + 1, x :: a, y :: b => if x ≠ y then false else if x = 0 then true else strncmpEq n a b
  | _ + 1, _, _ => false

/-- The test `s->len == strlen(name) && ngx_strncmp(s->data, name, strlen(name)) == 0` that
the code writes wherever a string is compared with a literal. -/
def isName (s name : Bytes) : Bool :=
  s.length == name.length && strncmpEq name.length s name

theorem strncmpEq_iff {a b : Bytes} (hl : a.length = b.length) (h0 : (0 : UInt8) ∉ b) :
    strncmpEq b.length a b = true ↔ a = b := by
  induction b generalizing a with
  | nil =>
    obtain rfl := List.length_eq_zero_iff.mp hl
    simp [strncmpEq]
  | cons y b ih =>
    cases a with
    | nil => exact absurd hl (by simp)
    | cons x a =>
      have hl' : a.length = b.length := by simpa using hl
      have hb : (0 : UInt8) ∉ b := List.not_mem_of_not_mem_cons h0
      have hy : y ≠ 0 := fun e => h0 (e ▸ List.mem_cons_self)
      rw [List.length_cons, strncmpEq]
      by_cases hxy : x = y
      · subst hxy
        rw [if_neg (by simp), if_neg hy, ih hl' hb]
        simp
      · simp [hxy]

/-- Against a literal without NUL the test is equality. -/
theorem isName_iff {s name : Bytes} (h0 : (0 : UInt8) ∉ name) :
    isName s name = true ↔ s = name := by
  unfold isName
  rw [Bool.and_eq_true, beq_iff_eq]
  constructor
  · rintro ⟨hl, he⟩
    exact (strncmpEq_iff hl h0).mp he
  · rintro rfl
    exact ⟨rfl, (strncmpEq_iff rfl h0).mpr rfl⟩

/-! ## 3. JSON values -/

/-- A parsed JSON value.  Objects keep their members in document order, which is the order
`nxe_json_object_iter` walks them in. -/
inductive Json where
  | null
  | boolean (b : Bool)
  | integer (i : Int)
  | real (text : Bytes)
  | string (s : Bytes)
  | array (elems : List Json)
  | object (members : List (Bytes × Json))

namespace Json

/-- `nxe_json_object_get`: the value of a member, `NULL` when there is none or the value is
not an object. -/
def objectGet : Json → Bytes → Option Json
  | .object ms, key => (ms.find? fun m => m.1 == key).map Prod.snd
  | _, _ => none

/-- `nxe_json_type(json) == NXE_JSON_OBJECT`. -/
def isObject : Json → Bool
  | .object _ => true
  | _ => false

/-- `nxe_json_string` on a node of type string. -/
def stringOf : Json → Option Bytes
  | .string s => some s
  | _ => none

/-- Look a member up and read it as a string: absent and of another type are the same. -/
def stringAt (obj : Json) (key : Bytes) : Option Bytes := (obj.objectGet key).bind stringOf

theorem stringAt_eq_some_iff {obj : Json} {key s : Bytes} :
    obj.stringAt key = some s ↔ obj.objectGet key = some (.string s) := by
  unfold stringAt
  cases h : obj.objectGet key with
  | none => simp
  | some v => cases v <;> simp [stringOf]

end Json

end NxeJwx

/-
# What a failed issue leaves in the caller's string

`nxe_jwx_encode` written out with its ways of leaving: the argument check and the preparation end
in a plain `return`, everything after a key may have been loaded jumps to `out:`, and the string
is assigned where the code assigns it, `len` before there is a buffer and the buffer piece by
piece.  The run is the one of `encode` (`encodeSteps_eq_encode`).

* Between the two assignments that clear `*out` and the label nothing that leaves through a plain
  `return` touches the string or loads a key (`encodeRest_triple`).
* The label clears the string on every failure and frees the key, so what the body had half built
  is never seen (`encodeSteps_of_given`).
* The argument check stands BEFORE the two assignments.  A rejected call leaves `*out` as it found
  it, although it returns `NGX_ERROR`, so the string is cleared or a whole token exactly when the
  arguments pass the check or the string was clear before (`encode_all_or_nothing`).
-/
import NxeJwx.RoundTrip
import NxeJwx.Facts
import NxeJwx.Lib.SharedTail

namespace NxeJwx

open SharedTail

variable {PKey : Type}

/-! ## 1. The code -/

/-- What the label looks at: the caller's string, and the private key. -/
structure EncodeLocals (PKey : Type) where
  out : OutStr
  pkey : Option PKey

namespace EncodeLocals

/-- `out->len = n`. -/
def setLen (n : Nat) (l : EncodeLocals PKey) : EncodeLocals PKey :=
  { l with out := { l.out with len := n } }

/-- `out->data = data`. -/
def setData (data : Option Bytes) (l : EncodeLocals PKey) : EncodeLocals PKey :=
  { l with out := { l.out with data := data } }

/-- `pkey = p`. -/
def setPkey (p : Option PKey) (l : EncodeLocals PKey) : EncodeLocals PKey := { l with pkey := p }

/-- The next octets written into `out->data`. -/
def write (b : Bytes) (l : EncodeLocals PKey) : EncodeLocals PKey :=
  { l with out := { l.out with data := l.out.data.map (· ++ b) } }

end EncodeLocals

/-- A statement of `nxe_jwx_encode`. -/
abbrev EncodeBody (PKey : Type) := Body (EncodeLocals PKey) EncodeStop

open Body EncodeLocals

/-- The switch: the key is loaded and signs. -/
def encodeSign (E : Env PKey) (f : EncodeFaults) (a : Alg) (key signingInput : Bytes) :
    EncodeBody PKey Bytes := do
  let signed := signRaw E f a key signingInput
  assign (setPkey signed.pkey)
  match signed.sig with
  | none => jump .signature
  | some sigRaw => pure sigRaw

/-- The assembly of the token. -/
def encodeAssemble (E : Env PKey) (f : EncodeFaults) (signingInput sigRaw : Bytes) :
    EncodeBody PKey PUnit :=
  match encodeB64url E (f .sigB64) sigRaw with
  | none => jump .memory
  | some sigB64 => do
    assign (setLen (signingInput.length + 1 + sigB64.length))
    let l ← read
    if l.out.len > maxJwtSize then
      assign (setLen 0)
      jump .tokenSize
    else
      assign (setData (if f .out then none else some []))
      let l ← read
      if l.out.data = none then
        assign (setLen 0)
        jump .memory
      else
        assign (write signingInput)
        assign (write [dot])
        assign (write sigB64)
        assign (write [0])

/-- What follows the argument check. -/
def encodeRest (E : Env PKey) (f : EncodeFaults) (alg : Bytes) (kid : Option Bytes)
    (claims key : Bytes) : EncodeBody PKey PUnit := do
  assign (setData none)
  assign (setLen 0)
  match encodePrepare E f alg kid claims with
  | .error stop => ret stop
  | .ok (a, signingInput) =>
    let sigRaw ← encodeSign E f a key signingInput
    encodeAssemble E f signingInput sigRaw

/-- `nxe_jwx_encode` before the label, for a string that is not NULL. -/
def encodeBody (E : Env PKey) (f : EncodeFaults) (pool : Option Pool)
    (alg kid claims key : Option Bytes) : EncodeBody PKey PUnit :=
  match pool, alg, claims, key with
  | some _, some alg, some claims, some key =>
    if alg.length = 0 ∨ claims.length = 0 ∨ key.length = 0 then ret .arguments
    else encodeRest E f alg kid claims key
  | _, _, _, _ => ret .arguments

/-- A plain `return NGX_ERROR`. -/
def encodeReturn (stop : EncodeStop) (l : EncodeLocals PKey) : EncodeRun PKey :=
  ⟨.error, some l.out, some stop, l.pkey, none⟩

/-- The label: the key is freed, and the string cleared unless `rc` is `NGX_OK`. -/
def encodeLabel (stop : Option EncodeStop) (l : EncodeLocals PKey) : EncodeRun PKey :=
  match stop with
  | none => ⟨.ok, some l.out, none, l.pkey, l.pkey⟩
  | some stop => ⟨.error, some ((l.setData none).setLen 0).out, some stop, l.pkey, l.pkey⟩

/-- `nxe_jwx_encode`, statement by statement. -/
def encodeSteps (E : Env PKey) (f : EncodeFaults) (pool : Option Pool)
    (alg kid claims key : Option Bytes) (out : Option OutStr) : EncodeRun PKey :=
  match out with
  | none => ⟨.error, none, some .arguments, none, none⟩
  | some o => (encodeBody E f pool alg kid claims key).run encodeReturn encodeLabel ⟨o, none⟩

/-! ## 2. The run is the one of `encode` -/

variable {E : Env PKey} {f : EncodeFaults} {alg claims key : Bytes} {kid : Option Bytes}

/-- The switch hands its signature on with the key it loaded, or jumps with it. -/
theorem encodeSign_eq (E : Env PKey) (f : EncodeFaults) (a : Alg) (key signingInput : Bytes)
    (l : EncodeLocals PKey) :
    encodeSign E f a key signingInput l =
      match (signRaw E f a key signingInput).sig with
      | none => (.jump .signature, l.setPkey (signRaw E f a key signingInput).pkey)
      | some sigRaw => (.next sigRaw, l.setPkey (signRaw E f a key signingInput).pkey) := by
  cases hsig : (signRaw E f a key signingInput).sig with
  | none =>
    simp only [encodeSign, hsig]
    rfl
  | some sigRaw =>
    simp only [encodeSign, hsig]
    rfl

/-- The assembly, from a clear string: the label finds the token, or a failure. -/
theorem run_encodeAssemble (signingInput sigRaw : Bytes) {l : EncodeLocals PKey}
    (hl : l.out = ⟨0, none⟩) :
    (encodeAssemble E f signingInput sigRaw).run encodeReturn encodeLabel l =
      match encodeB64url E (f .sigB64) sigRaw with
      | none => .fail .memory l.pkey
      | some sigB64 =>
        if signingInput.length + 1 + sigB64.length > maxJwtSize then .fail .tokenSize l.pkey
        else if f .out then .fail .memory l.pkey
        else
          ⟨.ok, some ⟨signingInput.length + 1 + sigB64.length,
            some (signingInput ++ dot :: sigB64 ++ [0])⟩, none, l.pkey, l.pkey⟩ := by
  obtain ⟨out, pkey⟩ := l
  obtain rfl : out = ⟨0, none⟩ := hl
  unfold encodeAssemble
  cases encodeB64url E (f .sigB64) sigRaw with
  | none => rfl
  | some sigB64 =>
    by_cases hsize : signingInput.length + 1 + sigB64.length > maxJwtSize
    · simp only [run_assign, run_read, setLen, if_pos hsize, run_jump]
      rfl
    · cases hout : f .out with
      | true =>
        simp only [run_assign, run_read, setLen, setData, if_neg hsize, if_true, run_jump]
        rfl
      | false =>
        simp only [run_assign, run_read, setLen, setData, if_neg hsize, Bool.false_eq_true,
          if_false, reduceCtorEq, run_assign_last, encodeLabel, write, Option.map_some,
          List.nil_append, List.append_assoc, List.cons_append]

/-- The statements make the run of `encode`. -/
theorem encodeSteps_eq_encode (pool : Option Pool) (alg kid claims key : Option Bytes)
    (out : Option OutStr) :
    encodeSteps E f pool alg kid claims key out = encode E f pool alg kid claims key out := by
  cases out with
  | none => cases pool <;> cases alg <;> cases claims <;> cases key <;> rfl
  | some o =>
    cases pool with
    | none => rfl
    | some p =>
    cases alg with
    | none => rfl
    | some alg =>
    cases claims with
    | none => rfl
    | some claims =>
    cases key with
    | none => rfl
    | some key =>
    simp only [encodeSteps, encodeBody, encode]
    split
    · rfl
    · simp only [encodeRest, run_assign]
      cases encodePrepare E f alg kid claims with
      | error stop => rfl
      | ok prepared =>
        obtain ⟨a, signingInput⟩ := prepared
        have hsign := encodeSign_eq E f a key signingInput
          (setLen 0 (setData none ⟨o, none⟩))
        simp only [encodeFinish]
        cases hsig : (signRaw E f a key signingInput).sig with
        | none =>
          rw [hsig] at hsign
          rw [run_bind_jump hsign]
          rfl
        | some sigRaw =>
          rw [hsig] at hsign
          rw [run_bind_next hsign, run_encodeAssemble _ _ rfl]
          rfl

/-! ## 3. What each part leaves -/

/-- A string argument that the check lets through. -/
def GivenString (s : Option Bytes) : Prop := ∃ b, s = some b ∧ b ≠ []

/-- The arguments pass the check at the head of `nxe_jwx_encode`. -/
structure ArgumentsGiven (pool : Option Pool) (alg claims key : Option Bytes) : Prop where
  pool : pool ≠ none
  alg : GivenString alg
  claims : GivenString claims
  key : GivenString key

/-- The caller's string holds a whole token, NUL-terminated: the one issued for these arguments. -/
def HoldsToken (E : Env PKey) (f : EncodeFaults) (alg kid claims key : Option Bytes)
    (out : OutStr) : Prop :=
  ∃ alg' claims' key' a header sig, alg = some alg' ∧ claims = some claims' ∧ key = some key' ∧
    Issued E f alg' kid claims' key' a header sig ∧
    out = ⟨(assemble E header claims' sig).length, some (assemble E header claims' sig ++ [0])⟩

/-- The string is clear. -/
def EncodeLocals.Clear (l : EncodeLocals PKey) : Prop := l.out = ⟨0, none⟩

/-- The string has its length, and so much of its buffer is filled; `none` is no buffer. -/
def EncodeLocals.Filled (len : Nat) (data : Option Bytes) (l : EncodeLocals PKey) : Prop :=
  l.out = ⟨len, data⟩

theorem EncodeLocals.Filled.write {len : Nat} {b : Bytes} (c : Bytes) {l : EncodeLocals PKey}
    (h : l.Filled len (some b)) : (l.write c).Filled len (some (b ++ c)) := by
  simp only [Filled, EncodeLocals.write, show l.out = ⟨len, some b⟩ from h, Option.map_some]

/-- The string holds the whole token, NUL-terminated. -/
structure TokenIn (token : Bytes) (l : EncodeLocals PKey) : Prop where
  size : token.length ≤ maxJwtSize
  filled : l.Filled token.length (some (token ++ [0]))

/-- The string is clear and no key is loaded. -/
structure EncodeLocals.Untouched (l : EncodeLocals PKey) : Prop where
  clear : l.Clear
  pkey : l.pkey = none

section Triples

variable {r : EncodeStop → EncodeLocals PKey → Prop}

/-- The switch loads a key and leaves the string alone. -/
theorem encodeSign_triple (a : Alg) (signingInput : Bytes) :
    Triple Clear (encodeSign E f a key signingInput)
      (fun sig l => l.Clear ∧ (signRaw E f a key signingInput).sig = some sig) r
      (fun _ _ => True) := by
  refine Triple.assign Clear (fun l hl => hl) ?_
  cases hsig : (signRaw E f a key signingInput).sig with
  | none => exact Triple.goto fun _ _ => trivial
  | some sig => exact Triple.pure fun l hl => ⟨hl, rfl⟩

/-- `out->len = 0; goto out;` -/
theorem giveUp_triple {pre : EncodeLocals PKey → Prop} {next : PUnit → EncodeLocals PKey → Prop}
    (stop : EncodeStop) :
    Triple pre (do assign (setLen 0); jump stop : EncodeBody PKey PUnit) next r
      (fun _ _ => True) :=
  Triple.assign (fun _ => True) (fun _ _ => trivial) (Triple.goto fun _ _ => trivial)

/-- The assembly ends with a whole token in the string, or at the label. -/
theorem encodeAssemble_triple (signingInput sig : Bytes) :
    Triple Clear (encodeAssemble E f signingInput sig)
      (fun _ => TokenIn (signingInput ++ dot :: E.b64.encode sig)) r (fun _ _ => True) := by
  have hlen : ∀ b : Bytes,
      signingInput.length + 1 + b.length = (signingInput ++ dot :: b).length := by
    intro b
    simp only [List.length_append, List.length_cons]
    omega
  unfold encodeAssemble
  cases hb64 : encodeB64url E (f .sigB64) sig with
  | none => exact Triple.goto fun _ _ => trivial
  | some sigB64 =>
    obtain rfl := encodeB64url_eq_some hb64
    obtain ⟨n, hn⟩ : ∃ n, (signingInput ++ dot :: E.b64.encode sig).length = n := ⟨_, rfl⟩
    simp only [hlen, hn]
    -- `out->len` is set, and there is no buffer yet
    refine Triple.assign (Filled n none) (fun l hl => ?_) (Triple.read fun l hl => ?_)
    · exact congrArg (fun o : OutStr => { o with len := n }) hl
    rw [show l.out = ⟨n, none⟩ from hl]
    split
    · exact giveUp_triple .tokenSize
    next hsize =>
    -- the buffer, when there is memory for it
    refine Triple.assign (Filled n (if f .out then none else some [])) (fun l' hl' => ?_)
      (Triple.read fun l' hl' => ?_)
    · subst hl'
      exact congrArg (fun o : OutStr => OutStr.mk o.len (if f .out then none else some [])) hl
    cases hout : f .out with
    | true =>
      rw [hout] at hl'
      have hdata : l'.out.data = none := congrArg OutStr.data hl'
      rw [if_pos hdata]
      exact giveUp_triple .memory
    | false =>
      rw [hout] at hl'
      have hdata : l'.out.data = some [] := congrArg OutStr.data hl'
      rw [if_neg (by simp [hdata])]
      refine Triple.assign (Filled n (some signingInput)) (fun l₁ h₁ => ?_) ?_
      · exact h₁ ▸ Filled.write (b := []) signingInput hl'
      refine Triple.assign (Filled n (some (signingInput ++ [dot])))
        (fun l₂ h₂ => h₂.write [dot]) ?_
      refine Triple.assign (Filled n (some (signingInput ++ [dot] ++ E.b64.encode sig)))
        (fun l₃ h₃ => h₃.write (E.b64.encode sig)) (Triple.assign_last fun l₄ h₄ => ?_)
      refine ⟨hn ▸ Nat.le_of_not_lt hsize, ?_⟩
      simpa only [hn, List.append_assoc, List.singleton_append] using h₄.write [0]

/-- What follows the argument check ends with the issued token in the string, in a plain `return`
with nothing to undo, or at the label. -/
theorem encodeRest_triple (hclaims : claims ≠ []) (hkey : key ≠ []) :
    Triple (fun l => l.pkey = none) (encodeRest E f alg kid claims key)
      (fun _ l => ∃ a header sig, Issued E f alg kid claims key a header sig ∧
        TokenIn (assemble E header claims sig) l)
      (fun _ => Untouched) (fun _ _ => True) := by
  refine Triple.assign (fun l => l.out.data = none ∧ l.pkey = none)
    (fun l hl => ⟨rfl, hl⟩) ?_
  refine Triple.assign Untouched (fun l hl => ⟨?_, hl.2⟩) ?_
  · show (⟨0, l.out.data⟩ : OutStr) = ⟨0, none⟩
    rw [hl.1]
  have hspec := encodePrepare_spec E f alg kid claims
  cases hprepare : encodePrepare E f alg kid claims with
  | error stop => exact Triple.leave fun l hl => hl
  | ok prepared =>
    obtain ⟨a, signingInput⟩ := prepared
    rw [hprepare] at hspec
    obtain ⟨header, hprepared, rfl⟩ := hspec
    refine Triple.bind ((encodeSign_triple a _).weaken (fun l hl => hl.clear) (fun _ _ => id)
      fun _ _ => id) fun sig => Triple.assume fun hsig => ?_
    refine (encodeAssemble_triple _ sig).weaken (fun _ => id) (fun _ l hl => ?_) fun _ _ => id
    rw [assemble_eq] at hl
    exact ⟨a, header, sig, ⟨hprepared, hclaims, hkey, hsig, hl.size⟩, hl⟩

/-- Arguments that pass the check lead to the rest of the body. -/
theorem encodeBody_triple {pool : Option Pool} {alg kid claims key : Option Bytes}
    (h : ArgumentsGiven pool alg claims key) :
    Triple (fun l => l.pkey = none) (encodeBody E f pool alg kid claims key)
      (fun _ l => HoldsToken E f alg kid claims key l.out) (fun _ => Untouched)
      (fun _ _ => True) := by
  obtain ⟨hpool, ⟨alg', rfl, halg⟩, ⟨claims', rfl, hclaims⟩, ⟨key', rfl, hkey⟩⟩ := h
  obtain ⟨p, rfl⟩ := Option.ne_none_iff_exists'.mp hpool
  have hrest : encodeBody E f (some p) (some alg') kid (some claims') (some key') =
      encodeRest E f alg' kid claims' key' := if_neg (by simp [halg, hclaims, hkey])
  rw [hrest]
  refine (encodeRest_triple hclaims hkey).weaken (fun _ => id) (fun _ l hl => ?_) fun _ _ => id
  obtain ⟨a, header, sig, hissued, htoken⟩ := hl
  exact ⟨alg', claims', key', a, header, sig, rfl, rfl, rfl, hissued, htoken.filled⟩

end Triples

/-! ## 4. What the caller sees -/

/-- The caller finds the issued token after `NGX_OK` and a clear string after `NGX_ERROR`, there is
no other return code, and the key that was loaded is freed. -/
structure AllOrNothing (E : Env PKey) (f : EncodeFaults) (alg kid claims key : Option Bytes)
    (run : EncodeRun PKey) : Prop where
  error : run.rc = .error → run.out = some ⟨0, none⟩
  ok : run.rc = .ok → ∃ out, run.out = some out ∧ HoldsToken E f alg kid claims key out
  rc : run.rc = .ok ∨ run.rc = .error
  freed : run.freed = run.loaded

/-- A call whose arguments pass the check is all or nothing: what a plain `return` leaves is clear
already, and the label clears the rest. -/
theorem encodeSteps_of_given (E : Env PKey) (f : EncodeFaults) {pool : Option Pool}
    {alg claims key : Option Bytes} (kid : Option Bytes) (o : OutStr)
    (h : ArgumentsGiven pool alg claims key) :
    AllOrNothing E f alg kid claims key (encodeSteps E f pool alg kid claims key (some o)) := by
  refine run_of_triple (AllOrNothing E f alg kid claims key) (encodeBody_triple h)
    ?_ ?_ ?_ rfl
  · intro stop l hl
    exact ⟨fun _ => congrArg some hl.clear, fun hrc => absurd hrc (by simp [encodeReturn]),
      .inr rfl, hl.pkey.symm⟩
  · intro stop l _
    exact ⟨fun _ => rfl, fun hrc => absurd hrc (by simp [encodeLabel]), .inr rfl, rfl⟩
  · intro l hl
    exact ⟨fun hrc => absurd hrc (by simp [encodeLabel]), fun _ => ⟨l.out, rfl, hl⟩, .inl rfl,
      rfl⟩

/-- A rejected call returns before it clears the string. -/
theorem encodeSteps_of_rejected {pool : Option Pool} {alg claims key : Option Bytes}
    (kid : Option Bytes) (o : OutStr) (h : ¬ ArgumentsGiven pool alg claims key) :
    encodeSteps E f pool alg kid claims key (some o) =
      ⟨.error, some o, some .arguments, none, none⟩ := by
  have hbody : encodeBody E f pool alg kid claims key = ret .arguments := by
    unfold encodeBody
    split
    next p alg claims key =>
      refine if_pos ?_
      by_contra hlen
      simp only [not_or, List.length_eq_zero_iff] at hlen
      exact h ⟨by simp, ⟨alg, rfl, hlen.1⟩, ⟨claims, rfl, hlen.2.1⟩, ⟨key, rfl, hlen.2.2⟩⟩
    · rfl
  simp only [encodeSteps, hbody, run_ret, encodeReturn]

/-- **A call leaves a whole token or nothing exactly when its arguments pass the check, or the
string was clear before it.**  The key is freed on every path, a rejected call included. -/
theorem encode_all_or_nothing (E : Env PKey) (f : EncodeFaults) (pool : Option Pool)
    (alg kid claims key : Option Bytes) (o : OutStr) :
    (AllOrNothing E f alg kid claims key (encodeSteps E f pool alg kid claims key (some o)) ↔
        ArgumentsGiven pool alg claims key ∨ o = ⟨0, none⟩) ∧
      (encodeSteps E f pool alg kid claims key (some o)).freed =
        (encodeSteps E f pool alg kid claims key (some o)).loaded := by
  by_cases hargs : ArgumentsGiven pool alg claims key
  · have hall := encodeSteps_of_given E f kid o hargs
    exact ⟨⟨fun _ => .inl hargs, fun _ => hall⟩, hall.freed⟩
  · rw [encodeSteps_of_rejected kid o hargs]
    refine ⟨⟨fun h => .inr (Option.some.inj (h.error rfl)), fun h => ?_⟩, rfl⟩
    obtain rfl := h.resolve_left hargs
    exact ⟨fun _ => rfl, fun hok => absurd hok (by simp), .inr rfl, rfl⟩

/-- A token of an earlier call. -/
def staleOut : OutStr := ⟨12, some (ascii "e30.e30.AAAA" ++ [0])⟩

/-- Claims of length zero: the call fails, and the string still holds the earlier token. -/
theorem encode_keeps_stale_token :
    ¬ AllOrNothing ({} : Facts).env noEncodeFaults (some (ascii "HS256")) none (some [])
      (some (ascii "secret"))
      (encodeSteps ({} : Facts).env noEncodeFaults (some ⟨⟩) (some (ascii "HS256")) none (some [])
        (some (ascii "secret")) (some staleOut)) := by
  intro h
  have hstale : some staleOut = some ⟨0, none⟩ := h.error rfl
  exact absurd hstale (by decide)

end NxeJwx

import SecureIvshmem.Impl.Crypto

/-!
# The calls of OpenSSL

What is assumed of them (`Evp.Documented`): what a call that succeeds does with
what its context was given, and that one that fails leaves the length that it
was to write. `encryptCalls` and `decryptCalls` are the calls that the two
functions make; what the functions return is a matter of the lengths that
these write (`aesGcmEncrypt_eq`, `aesGcmDecrypt_eq`). `Gcm.evp` is a library
whose calls all succeed.
-/

namespace Ivshmem

open SharedMem SharedMem.Word

/-! ## What is assumed -/

/-- AES-128-GCM, on a key, an IV, additional data and a text. -/
structure Gcm where
  encrypt : List UInt8 → List UInt8 → List UInt8 → List UInt8 → List UInt8
  decrypt : List UInt8 → List UInt8 → List UInt8 → List UInt8 → List UInt8
  /-- The tag of a ciphertext. -/
  tag : List UInt8 → List UInt8 → List UInt8 → List UInt8 → List UInt8
  /-- Whether a ciphertext and a tag are accepted. -/
  verify : List UInt8 → List UInt8 → List UInt8 → List UInt8 → List UInt8 → Bool

/-- It keeps lengths, and accepts the tags that it makes. -/
structure Gcm.Lawful (g : Gcm) : Prop where
  encrypt_length : ∀ key iv aad p, (g.encrypt key iv aad p).length = p.length
  decrypt_length : ∀ key iv aad c, (g.decrypt key iv aad c).length = c.length
  tag_length : ∀ key iv aad c, (g.tag key iv aad c).length = tagLen
  accepts : ∀ key iv aad p,
    g.verify key iv aad (g.encrypt key iv aad p) (g.tag key iv aad (g.encrypt key iv aad p)) = true

/-- What a context has been given, and the ciphertext that it wrote or
read. -/
structure EvpGiven where
  ivLen : Nat
  key : List UInt8
  iv : List UInt8
  aad : List UInt8
  ciphertext : List UInt8
  tag : List UInt8

/-- The calls are as their documentation has them for AES-128-GCM: one that
succeeds does what it is for, and an update or a final call that fails leaves
its length. -/
structure Evp.Documented {Ctx : Type} (e : Evp Ctx) (g : Gcm) (given : Ctx → EvpGiven) : Prop where
  setIvLen_given : ∀ n ctx, (e.setIvLen n ctx).ok = true →
    given (e.setIvLen n ctx).ctx = { given ctx with ivLen := n.toInt.toNat }
  initKeyIv_given : ∀ d key iv ctx, (e.initKeyIv d key iv ctx).ok = true →
    given (e.initKeyIv d key iv ctx).ctx = { given ctx with
      key := bytesAt key 0 keyLen, iv := bytesAt iv 0 (given ctx).ivLen, aad := [], ciphertext := [] }
  aadUpdate_given : ∀ d aad ctx, (e.aadUpdate d aad ctx).ok = true →
    given (e.aadUpdate d aad ctx).ctx = { given ctx with aad := (given ctx).aad ++ aad }
  aadUpdate_outl : ∀ d aad ctx, (e.aadUpdate d aad ctx).ok = true →
    (e.aadUpdate d aad ctx).outl = some (.ofNat aad.length)
  aadUpdate_failed : ∀ d aad ctx, (e.aadUpdate d aad ctx).ok = false → (e.aadUpdate d aad ctx).outl = none
  /-- As many bytes are written as are read. -/
  update_outl : ∀ d text ctx, (e.update d text ctx).ok = true →
    (e.update d text ctx).outl = some (.ofNat text.length)
  update_failed : ∀ d text ctx, (e.update d text ctx).ok = false → (e.update d text ctx).outl = none
  encryptUpdate : ∀ text ctx, (e.update .encrypt text ctx).ok = true → (given ctx).ciphertext = [] →
    (e.update .encrypt text ctx).out = g.encrypt (given ctx).key (given ctx).iv (given ctx).aad text ∧
      given (e.update .encrypt text ctx).ctx = { given ctx with
        ciphertext := g.encrypt (given ctx).key (given ctx).iv (given ctx).aad text }
  decryptUpdate : ∀ text ctx, (e.update .decrypt text ctx).ok = true → (given ctx).ciphertext = [] →
    (e.update .decrypt text ctx).out = g.decrypt (given ctx).key (given ctx).iv (given ctx).aad text ∧
      given (e.update .decrypt text ctx).ctx = { given ctx with ciphertext := text }
  /-- Nothing is left to write. -/
  final_out : ∀ d ctx, (e.final d ctx).ok = true → (e.final d ctx).out = []
  final_outl : ∀ d ctx, (e.final d ctx).ok = true → (e.final d ctx).outl = some 0
  final_failed : ∀ d ctx, (e.final d ctx).ok = false → (e.final d ctx).outl = none
  encryptFinal_given : ∀ ctx, (e.final .encrypt ctx).ok = true →
    given (e.final .encrypt ctx).ctx = given ctx
  decryptFinal_verifies : ∀ ctx, (e.final .decrypt ctx).ok = true →
    g.verify (given ctx).key (given ctx).iv (given ctx).aad (given ctx).ciphertext (given ctx).tag = true
  getTag_out : ∀ n ctx, (e.getTag n ctx).ok = true →
    (e.getTag n ctx).out =
    (g.tag (given ctx).key (given ctx).iv (given ctx).aad (given ctx).ciphertext).take n
  setTag_given : ∀ tag ctx, (e.setTag tag ctx).ok = true →
    given (e.setTag tag ctx).ctx = { given ctx with tag := tag }

/-! ## The calls made -/

/-- The calls that either function makes. -/
structure EvpCalls (Ctx : Type) where
  prep : Prepared Ctx
  update : EvpCall Ctx
  /-- That of the tag. -/
  tag : EvpCall Ctx
  final : EvpCall Ctx

namespace EvpCalls

variable {Ctx : Type} (c : EvpCalls Ctx) (len : Int32)

/-- All calls succeed. -/
def ok : Bool := c.prep.ok && c.update.ok && c.tag.ok && c.final.ok

/-- `len` after the update. -/
def updateLen : Int32 := c.update.outl.getD (c.prep.outl.getD len)

/-- `len` after the final call. -/
def finalLen : Int32 := c.final.outl.getD (c.updateLen len)

end EvpCalls

section

variable {Ctx : Type} (e : Evp Ctx)

def encryptCalls (plaintext : Mem UInt8) (n : Int32) (aad : Option (Mem UInt8)) (aadLen : Int32)
    (key iv : Mem UInt8) (ivLen : Int32) : Option (EvpCalls Ctx) := do
  let prep ← evpPrepare e .encrypt aad aadLen key iv ivLen (← e.ctxNew)
  let update := e.update .encrypt (← inputAt plaintext n) prep.ctx
  let final := e.final .encrypt update.ctx
  return ⟨prep, update, e.getTag tagLen final.ctx, final⟩

def decryptCalls (ciphertext : Mem UInt8) (n : Int32) (aad : Option (Mem UInt8)) (aadLen : Int32)
    (tag key iv : Mem UInt8) (ivLen : Int32) : Option (EvpCalls Ctx) := do
  let prep ← evpPrepare e .decrypt aad aadLen key iv ivLen (← e.ctxNew)
  let update := e.update .decrypt (← inputAt ciphertext n) prep.ctx
  let setTag := e.setTag (bytesAt tag 0 tagLen) update.ctx
  return ⟨prep, update, setTag, e.final .decrypt setTag.ctx⟩

variable {e} {c : EvpCalls Ctx} {aad : Option (Mem UInt8)} {n aadLen : Int32} {key iv : Mem UInt8}
  {ivLen : Int32}

theorem aesGcmEncrypt_eq (len : Int32) (plaintext ciphertext tag : Mem UInt8) :
    aesGcmEncrypt e len plaintext n aad aadLen key iv ivLen ciphertext tag =
      (encryptCalls e plaintext n aad aadLen key iv ivLen).map fun c =>
        (c.updateLen len + c.finalLen len,
          store (store ciphertext 0 c.update.out) (c.updateLen len).toInt c.final.out,
            store tag 0 c.tag.out) := by
  unfold aesGcmEncrypt encryptCalls
  cases e.ctxNew with
  | none => rfl
  | some ctx =>
    simp only [Option.bind_eq_bind, Option.bind_some]
    cases evpPrepare e .encrypt aad aadLen key iv ivLen ctx with
    | none => rfl
    | some prep =>
      cases inputAt plaintext n with
      | none => rfl
      | some text =>
        simp only [Option.bind_some, Option.pure_def, Option.map_some, EvpCalls.finalLen,
          EvpCalls.updateLen]

theorem aesGcmDecrypt_eq (len : Int32) (ciphertext tag plaintext : Mem UInt8) :
    aesGcmDecrypt e len ciphertext n aad aadLen tag key iv ivLen plaintext =
      (decryptCalls e ciphertext n aad aadLen tag key iv ivLen).map fun c =>
        (if c.final.ok then c.updateLen len + c.finalLen len else -1,
          store (store plaintext 0 c.update.out) (c.updateLen len).toInt c.final.out) := by
  unfold aesGcmDecrypt decryptCalls
  cases e.ctxNew with
  | none => rfl
  | some ctx =>
    simp only [Option.bind_eq_bind, Option.bind_some]
    cases evpPrepare e .decrypt aad aadLen key iv ivLen ctx with
    | none => rfl
    | some prep =>
      cases inputAt ciphertext n with
      | none => rfl
      | some text =>
        simp only [Option.bind_some, Option.pure_def, Option.map_some, EvpCall.ok, decide_eq_true_eq,
          EvpCalls.finalLen, EvpCalls.updateLen]

end

/-! ## Lengths -/

theorem ofNat_toNat_toInt {n : Int32} (h : 0 ≤ n) : Int32.ofNat n.toInt.toNat = n :=
  Int32.ofNat_toNatClampNeg n h

theorem inputAt_of_nonneg {n : Int32} (hn : 0 ≤ n) (p : Mem UInt8) :
    inputAt p n = some (bytesAt p 0 n.toInt.toNat) :=
  if_neg (Int32.not_lt.mpr hn)

/-- The additional data of a call. -/
def aadBytes (aad : Option (Mem UInt8)) (aadLen : Int32) : List UInt8 :=
  aad.elim [] fun aad => bytesAt aad 0 aadLen.toInt.toNat

theorem aadBytes_eq (aad : Option (Mem UInt8)) (aadLen : Int32) :
    aadBytes aad aadLen = (aadGiven aad aadLen).elim [] fun aad => bytesAt aad 0 aadLen.toInt.toNat := by
  rw [aadBytes, aadGiven]
  split
  · rename_i h0
    subst h0
    cases aad <;> rfl
  · rfl

section

variable {Ctx : Type} (e : Evp Ctx) (d : EvpDir) (aad : Option (Mem UInt8)) {aadLen : Int32}
  (key iv : Mem UInt8) (ivLen : Int32) (ctx : Ctx) (haad : 0 ≤ aadLen)
include haad

/-- With a length that is not negative the first calls are made. -/
theorem evpPrepare_cases :
    let keyIv := e.initKeyIv d key iv (e.setIvLen ivLen (e.initCipher d ctx).ctx).ctx
    let ok := (e.initCipher d ctx).ok && (e.setIvLen ivLen (e.initCipher d ctx).ctx).ok && keyIv.ok
    (aadGiven aad aadLen = none ∧
      evpPrepare e d aad aadLen key iv ivLen ctx = some ⟨keyIv.ctx, none, ok⟩) ∨
      ∃ p, aadGiven aad aadLen = some p ∧
        let update := e.aadUpdate d (bytesAt p 0 aadLen.toInt.toNat) keyIv.ctx
        evpPrepare e d aad aadLen key iv ivLen ctx = some ⟨update.ctx, update.outl, ok && update.ok⟩ := by
  intro keyIv ok
  simp only [evpPrepare]
  cases aadGiven aad aadLen with
  | none => exact .inl ⟨rfl, rfl⟩
  | some p =>
    refine .inr ⟨p, rfl, ?_⟩
    simp only [inputAt_of_nonneg haad, Option.bind_eq_bind, Option.bind_some, Option.pure_def]
    rfl

theorem evpPrepare_isSome : ∃ prep, evpPrepare e d aad aadLen key iv ivLen ctx = some prep := by
  obtain ⟨-, hsome⟩ | ⟨p, -, hsome⟩ := evpPrepare_cases e d aad key iv ivLen ctx haad
  · exact ⟨_, hsome⟩
  · exact ⟨_, hsome⟩

variable {e} {g : Gcm} {given : Ctx → EvpGiven} (he : e.Documented g given) {prep : Prepared Ctx}
  (hprep : evpPrepare e d aad aadLen key iv ivLen ctx = some prep)
include he hprep

/-- A length that starts out non-negative stays so. -/
theorem evpPrepare_outl : 0 ≤ prep.outl.getD 0 := by
  obtain ⟨-, hsome⟩ | ⟨p, -, hsome⟩ := evpPrepare_cases e d aad key iv ivLen ctx haad
  · obtain rfl := Option.some.inj (hprep.symm.trans hsome)
    exact Int32.le_refl 0
  · obtain rfl := Option.some.inj (hprep.symm.trans hsome)
    show 0 ≤ (EvpCall.outl _).getD 0
    cases hok : (EvpCall.ok _) with
    | true =>
      rw [he.aadUpdate_outl _ _ _ hok, length_bytesAt, ofNat_toNat_toInt haad]
      exact haad
    | false =>
      rw [he.aadUpdate_failed _ _ _ hok]
      exact Int32.le_refl 0

/-- What the context has been given where the first calls succeed. -/
theorem evpPrepare_given (hok : prep.ok = true) :
    (given prep.ctx).key = bytesAt key 0 keyLen ∧ (given prep.ctx).iv = bytesAt iv 0 ivLen.toInt.toNat ∧
      (given prep.ctx).aad = aadBytes aad aadLen ∧ (given prep.ctx).ciphertext = [] := by
  rw [aadBytes_eq]
  obtain ⟨hnone, hsome⟩ | ⟨p, hgiven, hsome⟩ := evpPrepare_cases e d aad key iv ivLen ctx haad
  · obtain rfl := Option.some.inj (hprep.symm.trans hsome)
    simp only [Bool.and_eq_true] at hok
    rw [hnone, he.initKeyIv_given _ _ _ _ hok.2, he.setIvLen_given _ _ hok.1.2]
    exact ⟨rfl, rfl, rfl, rfl⟩
  · obtain rfl := Option.some.inj (hprep.symm.trans hsome)
    simp only [Bool.and_eq_true] at hok
    rw [hgiven, he.aadUpdate_given _ _ _ hok.2, he.initKeyIv_given _ _ _ _ hok.1.2,
      he.setIvLen_given _ _ hok.1.1.2]
    exact ⟨rfl, rfl, rfl, rfl⟩

end

/-- The update and the final call are those of one direction, the update of
`n` bytes, and the calls before it leave no negative length. -/
structure EvpCalls.Made {Ctx : Type} (c : EvpCalls Ctx) (e : Evp Ctx) (d : EvpDir) (n : Int32) :
    Prop where
  prep : 0 ≤ c.prep.outl.getD 0
  update : ∃ text ctx, text.length = n.toInt.toNat ∧ c.update = e.update d text ctx
  final : ∃ ctx, c.final = e.final d ctx

namespace EvpCalls

variable {Ctx : Type} {e : Evp Ctx} {g : Gcm} {given : Ctx → EvpGiven} (he : e.Documented g given)
  {d : EvpDir} {n : Int32} (hn : 0 ≤ n) {c : EvpCalls Ctx} (hc : c.Made e d n)
include he hn hc

theorem Made.updateLen_of_ok (hok : c.update.ok = true) (len : Int32) : c.updateLen len = n := by
  obtain ⟨text, ctx, hlen, hupdate⟩ := hc.update
  rw [hupdate] at hok
  rw [updateLen, hupdate, he.update_outl d text ctx hok, hlen, ofNat_toNat_toInt hn, Option.getD_some]

theorem Made.updateLen_nonneg : 0 ≤ c.updateLen 0 := by
  obtain ⟨text, ctx, hlen, hupdate⟩ := hc.update
  cases hok : c.update.ok with
  | true =>
    rw [hc.updateLen_of_ok he hn hok]
    exact hn
  | false =>
    rw [hupdate] at hok
    rw [updateLen, hupdate, he.update_failed d text ctx hok]
    exact hc.prep

omit hn in
/-- A final call that succeeds writes nothing, and 0 to `len`. -/
theorem Made.final_of_ok (hok : c.final.ok = true) (len : Int32) :
    c.finalLen len = 0 ∧ c.final.out = [] := by
  obtain ⟨ctx, hfinal⟩ := hc.final
  rw [hfinal] at hok
  rw [finalLen, hfinal, he.final_outl d ctx hok, he.final_out d ctx hok]
  exact ⟨rfl, rfl⟩

omit hn in
/-- One that fails leaves `len`. -/
theorem Made.finalLen_of_not_ok (hok : c.final.ok = false) (len : Int32) :
    c.finalLen len = c.updateLen len := by
  obtain ⟨ctx, hfinal⟩ := hc.final
  rw [hfinal] at hok
  rw [finalLen, hfinal, he.final_failed d ctx hok, Option.getD_none]

end EvpCalls

/-! ## What the two functions do -/

section

variable {Ctx : Type} {e : Evp Ctx} {n aadLen : Int32} {ctx : Ctx} (aad : Option (Mem UInt8))
  (key iv : Mem UInt8) (ivLen : Int32) (hn : 0 ≤ n) (haad : 0 ≤ aadLen) (hctx : e.ctxNew = some ctx)
include hn haad hctx

/-- The calls of `aes_gcm_encrypt` on a context. -/
theorem encryptCalls_eq (plaintext : Mem UInt8) :
    ∃ prep, evpPrepare e .encrypt aad aadLen key iv ivLen ctx = some prep ∧
      let update := e.update .encrypt (bytesAt plaintext 0 n.toInt.toNat) prep.ctx
      let final := e.final .encrypt update.ctx
      encryptCalls e plaintext n aad aadLen key iv ivLen =
        some ⟨prep, update, e.getTag tagLen final.ctx, final⟩ := by
  obtain ⟨prep, hprep⟩ := evpPrepare_isSome e .encrypt aad key iv ivLen ctx haad
  refine ⟨prep, hprep, ?_⟩
  simp only [encryptCalls, hctx, hprep, inputAt_of_nonneg hn, Option.bind_eq_bind, Option.bind_some,
    Option.pure_def]

/-- The calls of `aes_gcm_decrypt` on a context. -/
theorem decryptCalls_eq (ciphertext tag : Mem UInt8) :
    ∃ prep, evpPrepare e .decrypt aad aadLen key iv ivLen ctx = some prep ∧
      let update := e.update .decrypt (bytesAt ciphertext 0 n.toInt.toNat) prep.ctx
      let setTag := e.setTag (bytesAt tag 0 tagLen) update.ctx
      decryptCalls e ciphertext n aad aadLen tag key iv ivLen =
        some ⟨prep, update, setTag, e.final .decrypt setTag.ctx⟩ := by
  obtain ⟨prep, hprep⟩ := evpPrepare_isSome e .decrypt aad key iv ivLen ctx haad
  refine ⟨prep, hprep, ?_⟩
  simp only [decryptCalls, hctx, hprep, inputAt_of_nonneg hn, Option.bind_eq_bind, Option.bind_some,
    Option.pure_def]

end

/-- Without a context no call is made. -/
theorem encryptCalls_none {Ctx : Type} {e : Evp Ctx} (hctx : e.ctxNew = none)
    (plaintext : Mem UInt8) (n : Int32) (aad : Option (Mem UInt8)) (aadLen : Int32)
    (key iv : Mem UInt8) (ivLen : Int32) :
    encryptCalls e plaintext n aad aadLen key iv ivLen = none := by
  simp only [encryptCalls, hctx, Option.bind_eq_bind, Option.bind_none]

theorem decryptCalls_none {Ctx : Type} {e : Evp Ctx} (hctx : e.ctxNew = none)
    (ciphertext : Mem UInt8) (n : Int32) (aad : Option (Mem UInt8)) (aadLen : Int32)
    (tag key iv : Mem UInt8) (ivLen : Int32) :
    decryptCalls e ciphertext n aad aadLen tag key iv ivLen = none := by
  simp only [decryptCalls, hctx, Option.bind_eq_bind, Option.bind_none]

section

variable {Ctx : Type} {e : Evp Ctx} {g : Gcm} {given : Ctx → EvpGiven} (he : e.Documented g given)
  {aad : Option (Mem UInt8)} {n aadLen : Int32} {key iv : Mem UInt8} {ivLen : Int32} (hn : 0 ≤ n)
  (haad : 0 ≤ aadLen) {c : EvpCalls Ctx}
include he hn haad

theorem encryptCalls_made {plaintext : Mem UInt8}
    (hc : encryptCalls e plaintext n aad aadLen key iv ivLen = some c) :
    c.Made e .encrypt n := by
  cases hctx : e.ctxNew with
  | none => cases (encryptCalls_none hctx plaintext n aad aadLen key iv ivLen).symm.trans hc
  | some ctx =>
    obtain ⟨prep, hprep, hcalls⟩ := encryptCalls_eq aad key iv ivLen hn haad hctx plaintext
    obtain rfl := Option.some.inj (hc.symm.trans hcalls)
    exact ⟨evpPrepare_outl .encrypt aad key iv ivLen ctx haad he hprep,
      ⟨_, _, length_bytesAt .., rfl⟩, ⟨_, rfl⟩⟩

theorem decryptCalls_made {ciphertext tag : Mem UInt8}
    (hc : decryptCalls e ciphertext n aad aadLen tag key iv ivLen = some c) : c.Made e .decrypt n := by
  cases hctx : e.ctxNew with
  | none => cases (decryptCalls_none hctx ciphertext n aad aadLen tag key iv ivLen).symm.trans hc
  | some ctx =>
    obtain ⟨prep, hprep, hcalls⟩ := decryptCalls_eq aad key iv ivLen hn haad hctx ciphertext tag
    obtain rfl := Option.some.inj (hc.symm.trans hcalls)
    exact ⟨evpPrepare_outl .decrypt aad key iv ivLen ctx haad he hprep,
      ⟨_, _, length_bytesAt .., rfl⟩, ⟨_, rfl⟩⟩

/-- What `aes_gcm_encrypt` does where all calls succeed. -/
theorem aesGcmEncrypt_of_ok (hg : g.Lawful) {plaintext : Mem UInt8}
    (hc : encryptCalls e plaintext n aad aadLen key iv ivLen = some c) (hok : c.ok = true) (len : Int32)
    (ciphertext tag : Mem UInt8) :
    let out := g.encrypt (bytesAt key 0 keyLen) (bytesAt iv 0 ivLen.toInt.toNat) (aadBytes aad aadLen)
      (bytesAt plaintext 0 n.toInt.toNat)
    aesGcmEncrypt e len plaintext n aad aadLen key iv ivLen ciphertext tag =
      some (n, store ciphertext 0 out, store tag 0
        (g.tag (bytesAt key 0 keyLen) (bytesAt iv 0 ivLen.toInt.toNat) (aadBytes aad aadLen) out)) := by
  intro out
  have hmade := encryptCalls_made he hn haad hc
  simp only [EvpCalls.ok, Bool.and_eq_true] at hok
  obtain ⟨⟨⟨hprepOk, hupdateOk⟩, htagOk⟩, hfinalOk⟩ := hok
  obtain ⟨hfinalLen, hfinalOut⟩ := hmade.final_of_ok he hfinalOk len
  have hbytes : c.update.out = out ∧
      c.tag.out =
        g.tag (bytesAt key 0 keyLen) (bytesAt iv 0 ivLen.toInt.toNat) (aadBytes aad aadLen) out := by
    cases hctx : e.ctxNew with
    | none => cases (encryptCalls_none hctx plaintext n aad aadLen key iv ivLen).symm.trans hc
    | some ctx =>
      obtain ⟨prep, hprep, hcalls⟩ := encryptCalls_eq aad key iv ivLen hn haad hctx plaintext
      obtain rfl := Option.some.inj (hc.symm.trans hcalls)
      obtain ⟨hk, hi, ha, hct⟩ := evpPrepare_given .encrypt aad key iv ivLen ctx haad he hprep hprepOk
      obtain ⟨hout, hgiven⟩ := he.encryptUpdate _ _ hupdateOk hct
      rw [hk, hi, ha] at hout hgiven
      refine ⟨hout, ?_⟩
      rw [he.getTag_out _ _ htagOk, he.encryptFinal_given _ hfinalOk, hgiven]
      simp only [hk, hi, ha]
      exact List.take_of_length_le (Nat.le_of_eq (hg.tag_length _ _ _ _))
  rw [aesGcmEncrypt_eq, hc, Option.map_some, hfinalLen, hfinalOut,
    hmade.updateLen_of_ok he hn hupdateOk, hbytes.1, hbytes.2, store_nil, Int32.add_zero]

/-- What `aes_gcm_decrypt` does where all calls succeed; the tag has then been
verified. -/
theorem aesGcmDecrypt_of_ok {ciphertext tag : Mem UInt8}
    (hc : decryptCalls e ciphertext n aad aadLen tag key iv ivLen = some c) (hok : c.ok = true)
    (len : Int32) (plaintext : Mem UInt8) :
    aesGcmDecrypt e len ciphertext n aad aadLen tag key iv ivLen plaintext =
        some (n, store plaintext 0 (g.decrypt (bytesAt key 0 keyLen) (bytesAt iv 0 ivLen.toInt.toNat)
          (aadBytes aad aadLen) (bytesAt ciphertext 0 n.toInt.toNat))) ∧
      g.verify (bytesAt key 0 keyLen) (bytesAt iv 0 ivLen.toInt.toNat) (aadBytes aad aadLen)
        (bytesAt ciphertext 0 n.toInt.toNat) (bytesAt tag 0 tagLen) = true := by
  have hmade := decryptCalls_made he hn haad hc
  simp only [EvpCalls.ok, Bool.and_eq_true] at hok
  obtain ⟨⟨⟨hprepOk, hupdateOk⟩, htagOk⟩, hfinalOk⟩ := hok
  obtain ⟨hfinalLen, hfinalOut⟩ := hmade.final_of_ok he hfinalOk len
  have hbytes : c.update.out =
    g.decrypt (bytesAt key 0 keyLen) (bytesAt iv 0 ivLen.toInt.toNat) (aadBytes aad aadLen)
      (bytesAt ciphertext 0 n.toInt.toNat) ∧
      g.verify (bytesAt key 0 keyLen) (bytesAt iv 0 ivLen.toInt.toNat) (aadBytes aad aadLen)
        (bytesAt ciphertext 0 n.toInt.toNat) (bytesAt tag 0 tagLen) = true := by
    cases hctx : e.ctxNew with
    | none => cases (decryptCalls_none hctx ciphertext n aad aadLen tag key iv ivLen).symm.trans hc
    | some ctx =>
      obtain ⟨prep, hprep, hcalls⟩ := decryptCalls_eq aad key iv ivLen hn haad hctx ciphertext tag
      obtain rfl := Option.some.inj (hc.symm.trans hcalls)
      obtain ⟨hk, hi, ha, hct⟩ := evpPrepare_given .decrypt aad key iv ivLen ctx haad he hprep hprepOk
      obtain ⟨hout, hgiven⟩ := he.decryptUpdate _ _ hupdateOk hct
      rw [hk, hi, ha] at hout
      refine ⟨hout, ?_⟩
      have hverify := he.decryptFinal_verifies _ hfinalOk
      rw [he.setTag_given _ _ htagOk, hgiven] at hverify
      simpa only [hk, hi, ha] using hverify
  refine ⟨?_, hbytes.2⟩
  rw [aesGcmDecrypt_eq, hc, Option.map_some, hfinalLen, hfinalOut,
    hmade.updateLen_of_ok he hn hupdateOk, hbytes.1, store_nil, Int32.add_zero, if_pos hfinalOk]

end

/-! ## A library that does not fail -/

/-- An update of a context, as documented. -/
def Gcm.update (g : Gcm) : EvpDir → List UInt8 → EvpGiven → EvpCall EvpGiven
  | .encrypt, text, ctx =>
    let out := g.encrypt ctx.key ctx.iv ctx.aad text
    ⟨1, { ctx with ciphertext := out }, some (.ofNat text.length), out⟩
  | .decrypt, text, ctx =>
    ⟨1, { ctx with ciphertext := text }, some (.ofNat text.length), g.decrypt ctx.key ctx.iv ctx.aad text⟩

/-- A final call, which fails only where it has a tag to reject. -/
def Gcm.final (g : Gcm) : EvpDir → EvpGiven → EvpCall EvpGiven
  | .encrypt, ctx => ⟨1, ctx, some 0, []⟩
  | .decrypt, ctx =>
    if g.verify ctx.key ctx.iv ctx.aad ctx.ciphertext ctx.tag then ⟨1, ctx, some 0, []⟩
    else ⟨0, ctx, none, []⟩

/-- The calls for `g`, where nothing fails but the verification of a tag. -/
def Gcm.evp (g : Gcm) : Evp EvpGiven where
  ctxNew := some ⟨ivLen, [], [], [], [], []⟩
  initCipher _ ctx := ⟨1, ctx, none, []⟩
  setIvLen n ctx := ⟨1, { ctx with ivLen := n.toInt.toNat }, none, []⟩
  initKeyIv _ key iv ctx :=
    ⟨1, { ctx with key := bytesAt key 0 keyLen, iv := bytesAt iv 0 ctx.ivLen, aad := [],
                   ciphertext := [] }, none, []⟩
  aadUpdate _ aad ctx := ⟨1, { ctx with aad := ctx.aad ++ aad }, some (.ofNat aad.length), []⟩
  update := g.update
  final := g.final
  getTag n ctx := ⟨1, ctx, none, (g.tag ctx.key ctx.iv ctx.aad ctx.ciphertext).take n⟩
  setTag tag ctx := ⟨1, { ctx with tag := tag }, none, []⟩

@[simp] theorem EvpCall.ok_one {Ctx : Type} (ctx : Ctx) (outl : Option Int32) (out : List UInt8) :
    (⟨1, ctx, outl, out⟩ : EvpCall Ctx).ok = true :=
  decide_eq_true (show (0 : Int32) < 1 by decide)

@[simp] theorem EvpCall.ok_zero {Ctx : Type} (ctx : Ctx) (outl : Option Int32) (out : List UInt8) :
    (⟨0, ctx, outl, out⟩ : EvpCall Ctx).ok = false :=
  decide_eq_false (show ¬ (0 : Int32) < 0 by decide)

theorem Gcm.evp_documented (g : Gcm) : g.evp.Documented g id where
  setIvLen_given _ _ _ := rfl
  initKeyIv_given _ _ _ _ _ := rfl
  aadUpdate_given _ _ _ _ := rfl
  aadUpdate_outl _ _ _ _ := rfl
  aadUpdate_failed d aad ctx h := by simp [evp] at h
  update_outl d _ _ _ := by cases d <;> rfl
  update_failed d text ctx h := by cases d <;> simp [evp, update] at h
  encryptUpdate _ _ _ _ := ⟨rfl, rfl⟩
  decryptUpdate _ _ _ _ := ⟨rfl, rfl⟩
  final_out d ctx _ := by
    cases d with
    | encrypt => rfl
    | decrypt =>
      simp only [evp, final]
      split <;> rfl
  final_outl d ctx h := by
    cases d with
    | encrypt => rfl
    | decrypt =>
      simp only [evp, final] at h ⊢
      split at h
      · rw [if_pos ‹_›]
      · simp at h
  final_failed d ctx h := by
    cases d with
    | encrypt => simp [evp, final] at h
    | decrypt =>
      simp only [evp, final] at h ⊢
      split at h
      · simp at h
      · rw [if_neg ‹_›]
  encryptFinal_given _ _ := rfl
  decryptFinal_verifies ctx h := by
    simp only [evp, final] at h
    split at h
    · assumption
    · simp at h
  getTag_out _ _ _ := rfl
  setTag_given _ _ _ := rfl

/-! ## 32 zeros -/

/-- The key of both programs. -/
def programKey : List UInt8 :=
  [0x01, 0x23, 0x45, 0x67, 0x89, 0xAB, 0xCD, 0xEF, 0x10, 0x32, 0x54, 0x76, 0x98, 0xBA, 0xDC, 0xFE]

/-- The ciphertext of 32 zeros under that key and an IV of zeros. -/
def sealedZeros : List UInt8 :=
  [141, 101, 222, 161, 245, 140, 253, 60, 223, 84, 140, 4, 8, 61, 53, 143,
    12, 9, 227, 147, 91, 139, 155, 192, 97, 2, 24, 91, 186, 41, 40, 191]

/-- Its tag. -/
def tagOfZeros : List UInt8 := [165, 128, 32, 50, 108, 93, 11, 3, 21, 46, 249, 14, 175, 56, 7, 127]

/-- AES-128-GCM, as on 32 zeros under the key of the programs and an IV of
zeros. -/
def gcmFromZeros : Gcm where
  encrypt _ _ _ p := List.zipWith (· ^^^ ·) p (sealedZeros ++ List.replicate p.length 0)
  decrypt _ _ _ c := List.zipWith (· ^^^ ·) c (sealedZeros ++ List.replicate c.length 0)
  tag _ _ _ c := if c = sealedZeros then tagOfZeros else List.replicate tagLen 0
  verify _ _ _ c t := t == if c = sealedZeros then tagOfZeros else List.replicate tagLen 0

theorem gcmFromZeros_lawful : gcmFromZeros.Lawful where
  encrypt_length key iv aad p := by
    simp only [gcmFromZeros, List.length_zipWith, List.length_append, List.length_replicate]
    omega
  decrypt_length key iv aad c := by
    simp only [gcmFromZeros, List.length_zipWith, List.length_append, List.length_replicate]
    omega
  tag_length key iv aad c := by
    simp only [gcmFromZeros]
    split <;> rfl
  accepts key iv aad p := by simp [gcmFromZeros]

end Ivshmem

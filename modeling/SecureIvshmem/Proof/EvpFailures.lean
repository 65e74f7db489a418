import SecureIvshmem.Proof.Evp

/-!
# Failures of `EVP` calls

`aes_gcm_encrypt` looks at no result of the calls it makes, so it returns -1
for no failure (`encryptReports_iff`). `aes_gcm_decrypt` looks at that of
`EVP_DecryptFinal_ex` only, so it misses every failure before after which the
tag is accepted nevertheless (`decryptReports_iff`). Without a context neither
returns.
-/

namespace Ivshmem

open SharedMem SharedMem.Word

/-- Twice a number is even, also where it wraps. -/
theorem add_self_ne_neg_one (x : Int32) : x + x ≠ -1 := fun e => by
  have h := congrArg Int32.toInt e
  have e1 : (-1 : Int32).toInt = -1 := by decide
  rw [Int32.toInt_add, e1, Int.bmod_def] at h
  split at h <;> omega

theorem ne_neg_one_of_nonneg {x : Int32} (h : 0 ≤ x) : x ≠ -1 := by
  rintro rfl
  exact absurd h (by decide)

/-- All calls succeed, or the final one fails. -/
def EvpCalls.okOrFinalFails {Ctx : Type} (c : EvpCalls Ctx) : Bool := c.ok || !c.final.ok

/-- What either function has added up, with 0 in `len` at first, is not -1:
it is a length, or twice one where the final call fails. -/
theorem EvpCalls.Made.sum_ne {Ctx : Type} {e : Evp Ctx} {g : Gcm} {given : Ctx → EvpGiven}
    (he : e.Documented g given) {d : EvpDir} {n : Int32} (hn : 0 ≤ n) {c : EvpCalls Ctx}
    (hc : c.Made e d n) :
    c.updateLen 0 + c.finalLen 0 ≠ -1 := by
  cases hok : c.final.ok with
  | true =>
    rw [(hc.final_of_ok he hok 0).1, Int32.add_zero]
    exact ne_neg_one_of_nonneg (hc.updateLen_nonneg he hn)
  | false =>
    rw [hc.finalLen_of_not_ok he hok]
    exact add_self_ne_neg_one _

section

variable {Ctx : Type} (e : Evp Ctx) (g : Gcm)

/-- A call returns, reports a failure by -1, and else returns the length of a
ciphertext that is accepted with the tag, whatever `len` was before. -/
def EncryptReports (plaintext : Mem UInt8) (n : Int32) (aad : Option (Mem UInt8)) (aadLen : Int32)
    (key iv : Mem UInt8) (ivLen : Int32) (ciphertext tag : Mem UInt8) : Prop :=
  ∀ len, ∃ out, aesGcmEncrypt e len plaintext n aad aadLen key iv ivLen ciphertext tag = some out ∧
    let ok := (encryptCalls e plaintext n aad aadLen key iv ivLen).any EvpCalls.ok
    (ok = false → out.1 = -1) ∧
    (ok = true → out.1 = n ∧
      g.verify (bytesAt key 0 keyLen) (bytesAt iv 0 ivLen.toInt.toNat) (aadBytes aad aadLen)
        (bytesAt out.2.1 0 n.toInt.toNat) (bytesAt out.2.2 0 tagLen) = true)

/-- A call returns the length of the plaintext, and leaves it, if no call
failed and the tag is accepted, and else -1, whatever `len` was before. -/
def DecryptReports (ciphertext : Mem UInt8) (n : Int32) (aad : Option (Mem UInt8)) (aadLen : Int32)
    (tag key iv : Mem UInt8) (ivLen : Int32) (plaintext : Mem UInt8) : Prop :=
  ∀ len, ∃ out, aesGcmDecrypt e len ciphertext n aad aadLen tag key iv ivLen plaintext = some out ∧
    let good := (decryptCalls e ciphertext n aad aadLen tag key iv ivLen).any EvpCalls.ok = true ∧
      g.verify (bytesAt key 0 keyLen) (bytesAt iv 0 ivLen.toInt.toNat) (aadBytes aad aadLen)
        (bytesAt ciphertext 0 n.toInt.toNat) (bytesAt tag 0 tagLen) = true
    (good → out.1 = n ∧ bytesAt out.2 0 n.toInt.toNat =
      g.decrypt (bytesAt key 0 keyLen) (bytesAt iv 0 ivLen.toInt.toNat) (aadBytes aad aadLen)
        (bytesAt ciphertext 0 n.toInt.toNat)) ∧
    (¬ good → out.1 = -1)

variable {e g} {given : Ctx → EvpGiven} (hg : g.Lawful) (he : e.Documented g given)
  {aad : Option (Mem UInt8)} {n aadLen : Int32} (hn : 0 ≤ n) (haad : 0 ≤ aadLen)
  {key iv : Mem UInt8} {ivLen : Int32} (plaintext ciphertext tag : Mem UInt8)
include hg he hn haad

/-- For every message, additional data, key and IV: `aes_gcm_encrypt` reports
its failures just if it has a context and no call fails. -/
theorem encryptReports_iff :
    EncryptReports e g plaintext n aad aadLen key iv ivLen ciphertext tag ↔
      (encryptCalls e plaintext n aad aadLen key iv ivLen).any EvpCalls.ok = true := by
  constructor
  · intro h
    obtain ⟨out, hout, hfail, -⟩ := h 0
    rw [aesGcmEncrypt_eq] at hout
    obtain ⟨c, hc, rfl⟩ := Option.map_eq_some_iff.mp hout
    by_contra hnot
    exact (encryptCalls_made he hn haad hc).sum_ne he hn (hfail ((Bool.not_eq_true _).mp hnot))
  · intro hany len
    obtain ⟨c, hc, hok⟩ := (Option.any_eq_true _ _).mp hany
    refine ⟨_, aesGcmEncrypt_of_ok he hn haad hg hc hok len ciphertext tag,
      fun hnot => absurd (hnot.symm.trans hany) Bool.false_ne_true, fun _ => ⟨rfl, ?_⟩⟩
    -- the tag is that of the bytes in the buffer
    rw [bytesAt_store_eq ciphertext 0 ((hg.encrypt_length ..).trans (length_bytesAt ..)),
      bytesAt_store_eq tag 0 (hg.tag_length ..)]
    exact hg.accepts _ _ _ _

/-- For every ciphertext, tag, additional data, key and IV: `aes_gcm_decrypt`
reports its failures and rejections just if it has a context and no call
fails, or the final one does. -/
theorem decryptReports_iff :
    DecryptReports e g ciphertext n aad aadLen tag key iv ivLen plaintext ↔
      (decryptCalls e ciphertext n aad aadLen tag key iv ivLen).any EvpCalls.okOrFinalFails = true := by
  constructor
  · intro h
    obtain ⟨out, hout, -, hfail⟩ := h 0
    rw [aesGcmDecrypt_eq] at hout
    obtain ⟨c, hc, rfl⟩ := Option.map_eq_some_iff.mp hout
    rw [hc, Option.any_some, EvpCalls.okOrFinalFails, Bool.or_eq_true, Bool.not_eq_true']
    by_contra hnot
    rw [not_or, Bool.not_eq_true, Bool.not_eq_false] at hnot
    -- a final call that accepts after a failure leaves a length
    have hret := hfail fun hgood => by
      rw [hc, Option.any_some, hnot.1] at hgood
      exact Bool.false_ne_true hgood.1
    rw [if_pos hnot.2] at hret
    exact (decryptCalls_made he hn haad hc).sum_ne he hn hret
  · intro hany len
    obtain ⟨c, hc, hcond⟩ := (Option.any_eq_true _ _).mp hany
    cases hok : c.ok with
    | true =>
      obtain ⟨hret, hverify⟩ := aesGcmDecrypt_of_ok he hn haad hc hok len plaintext
      refine ⟨_, hret, fun _ => ⟨rfl, ?_⟩, fun hbad => absurd ⟨?_, hverify⟩ hbad⟩
      · exact bytesAt_store_eq plaintext 0 ((hg.decrypt_length ..).trans (length_bytesAt ..))
      · rw [hc, Option.any_some, hok]
    | false =>
      rw [EvpCalls.okOrFinalFails, hok, Bool.false_or, Bool.not_eq_true'] at hcond
      refine ⟨_, (aesGcmDecrypt_eq len ciphertext tag plaintext).trans (congrArg (Option.map _) hc),
        ?_, fun _ => ?_⟩
      · rintro ⟨hany', -⟩
        rw [hc, Option.any_some, hok] at hany'
        exact absurd hany' Bool.false_ne_true
      · exact if_neg (hcond ▸ Bool.false_ne_true)

end

/-- For every text, additional data, key and IV, and whichever calls fail: the
two functions report failures just if there is a context and no call fails,
or, for `aes_gcm_decrypt`, the final one does. -/
theorem aesGcm_reports_iff {Ctx : Type} {e : Evp Ctx} {g : Gcm} {given : Ctx → EvpGiven} (hg : g.Lawful)
    (he : e.Documented g given) {n aadLen : Int32} (hn : 0 ≤ n) (haad : 0 ≤ aadLen)
    (aad : Option (Mem UInt8)) (key iv : Mem UInt8) (ivLen : Int32)
    (plaintext ciphertext tag : Mem UInt8) :
    (EncryptReports e g plaintext n aad aadLen key iv ivLen ciphertext tag ↔
      (encryptCalls e plaintext n aad aadLen key iv ivLen).any EvpCalls.ok = true) ∧
    (DecryptReports e g ciphertext n aad aadLen tag key iv ivLen plaintext ↔
      (decryptCalls e ciphertext n aad aadLen tag key iv ivLen).any EvpCalls.okOrFinalFails = true) :=
  ⟨encryptReports_iff hg he hn haad plaintext ciphertext tag,
    decryptReports_iff hg he hn haad plaintext ciphertext tag⟩

theorem aesGcm_reports_zeros :
    EncryptReports gcmFromZeros.evp gcmFromZeros (fun _ => 0) 32 none 0
        (store (fun _ => 0) 0 programKey) (fun _ => 0) 12 (store (fun _ => 0) 0 sealedZeros)
        (store (fun _ => 0) 0 tagOfZeros) ∧
      DecryptReports gcmFromZeros.evp gcmFromZeros (store (fun _ => 0) 0 sealedZeros) 32 none 0
        (store (fun _ => 0) 0 tagOfZeros) (store (fun _ => 0) 0 programKey) (fun _ => 0) 12
        (fun _ => 0) :=
  have h := aesGcm_reports_iff gcmFromZeros_lawful gcmFromZeros.evp_documented (n := 32)
    (by decide) (Int32.le_refl 0) none (store (fun _ => 0) 0 programKey) (fun _ => 0) 12
    (fun _ => 0) (store (fun _ => 0) 0 sealedZeros) (store (fun _ => 0) 0 tagOfZeros)
  ⟨h.1.mpr (by decide +kernel), h.2.mpr (by decide +kernel)⟩

/-- A library whose `EVP_CTRL_GCM_GET_TAG` fails. -/
def evpWithoutTag : Evp EvpGiven := { gcmFromZeros.evp with getTag := fun _ ctx => ⟨0, ctx, none, []⟩ }

theorem evpWithoutTag_documented : evpWithoutTag.Documented gcmFromZeros id :=
  { gcmFromZeros.evp_documented with getTag_out := fun n ctx h => by simp [evpWithoutTag] at h }

/-- Where the tag cannot be had, the caller gets the length of the ciphertext
and a tag that was never written. -/
theorem not_encryptReports :
    evpWithoutTag.Documented gcmFromZeros id ∧
      ((aesGcmEncrypt evpWithoutTag 0 (fun _ => 0) 32 none 0 (store (fun _ => 0) 0 programKey)
        (fun _ => 0) 12 (fun _ => 0) (fun _ => 0)).map fun out => (out.1, bytesAt out.2.2 0 tagLen)) =
        some (32, List.replicate tagLen 0) ∧
      ¬ EncryptReports evpWithoutTag gcmFromZeros (fun _ => 0) 32 none 0 (store (fun _ => 0) 0 programKey)
        (fun _ => 0) 12 (fun _ => 0) (fun _ => 0) := by
  refine ⟨evpWithoutTag_documented, by decide +kernel, fun h => ?_⟩
  obtain ⟨out, hout, hfail, -⟩ := h 0
  have hret : (aesGcmEncrypt evpWithoutTag 0 (fun _ => 0) 32 none 0
      (store (fun _ => 0) 0 programKey) (fun _ => 0) 12 (fun _ => 0) (fun _ => 0)).map Prod.fst =
      some 32 := by
    decide +kernel
  rw [hout, Option.map_some, hfail (by decide +kernel)] at hret
  exact absurd (Option.some.inj hret) (by decide)

end Ivshmem

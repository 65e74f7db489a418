import SecureIvshmem.Framework.Mem
import SecureIvshmem.Framework.Word

/-!
# Encrypted frames

`src/ivshmem_crypto.c`, and the frames of `examples/writer/aes_main.c` and
`examples/reader/aes_main.c`. The calls of OpenSSL are a parameter (`Evp`): any
of them may fail, and neither function looks at a result but that of
`EVP_DecryptFinal_ex`. A call on a null context is a fault, as is one with a
negative length, and a function with a fault returns `none`. `len` is
uninitialised at first, so its value is an argument. A buffer is the memory
from its pointer on.
-/

namespace Ivshmem

open SharedMem SharedMem.Word

/-- `KEY_LEN`. -/
abbrev keyLen : Nat := 16

/-- `IV_LEN`. -/
abbrev ivLen : Nat := 12

/-- `TAG_LEN`. -/
abbrev tagLen : Nat := 16

/-! ## The calls of OpenSSL -/

/-- The calls named `EVP_Encrypt`, and those named `EVP_Decrypt`. -/
inductive EvpDir where
  | encrypt
  | decrypt
  deriving DecidableEq

/-- What a call does: what it returns, the context after it, the length that it
writes to `*outl`, if it does, and the bytes that it writes to its buffer. -/
structure EvpCall (Ctx : Type) where
  ret : Int32
  ctx : Ctx
  outl : Option Int32
  out : List UInt8

/-- A call succeeds. -/
def EvpCall.ok {Ctx : Type} (c : EvpCall Ctx) : Bool := decide (0 < c.ret)

/-- The calls that the two functions make. -/
structure Evp (Ctx : Type) where
  /-- `EVP_CIPHER_CTX_new`, `none` for a null pointer. -/
  ctxNew : Option Ctx
  /-- `EVP_EncryptInit_ex` or `EVP_DecryptInit_ex` with `EVP_aes_128_gcm()`. -/
  initCipher : EvpDir → Ctx → EvpCall Ctx
  /-- `EVP_CTRL_GCM_SET_IVLEN`. -/
  setIvLen : Int32 → Ctx → EvpCall Ctx
  /-- `EVP_EncryptInit_ex` or `EVP_DecryptInit_ex` with a key and an IV. -/
  initKeyIv : EvpDir → Mem UInt8 → Mem UInt8 → Ctx → EvpCall Ctx
  /-- `EVP_EncryptUpdate` or `EVP_DecryptUpdate` without an output buffer. -/
  aadUpdate : EvpDir → List UInt8 → Ctx → EvpCall Ctx
  /-- `EVP_EncryptUpdate` or `EVP_DecryptUpdate` with one. -/
  update : EvpDir → List UInt8 → Ctx → EvpCall Ctx
  /-- `EVP_EncryptFinal_ex` or `EVP_DecryptFinal_ex`. -/
  final : EvpDir → Ctx → EvpCall Ctx
  /-- `EVP_CTRL_GCM_GET_TAG`, of so many bytes. -/
  getTag : Nat → Ctx → EvpCall Ctx
  /-- `EVP_CTRL_GCM_SET_TAG`. -/
  setTag : List UInt8 → Ctx → EvpCall Ctx

/-- What a call reads through a pointer and a length. -/
def inputAt (p : Mem UInt8) (n : Int32) : Option (List UInt8) :=
  if n < 0 then none else some (bytesAt p 0 n.toInt.toNat)

/-- `aad && aad_len`: the additional data that there is. -/
def aadGiven (aad : Option (Mem UInt8)) (aadLen : Int32) : Option (Mem UInt8) :=
  if aadLen = 0 then none else aad

/-- What the calls up to the additional data leave: the context, what they
write to `len`, and whether all succeeded, which neither function looks at. -/
structure Prepared (Ctx : Type) where
  ctx : Ctx
  outl : Option Int32
  ok : Bool

section

variable {Ctx : Type} (e : Evp Ctx)

/-- The calls that both functions make first. -/
def evpPrepare (d : EvpDir) (aad : Option (Mem UInt8)) (aadLen : Int32) (key iv : Mem UInt8)
    (ivLen : Int32) (ctx : Ctx) : Option (Prepared Ctx) :=
  let cipher := e.initCipher d ctx
  let setIvLen := e.setIvLen ivLen cipher.ctx
  let keyIv := e.initKeyIv d key iv setIvLen.ctx
  let ok := cipher.ok && setIvLen.ok && keyIv.ok
  match aadGiven aad aadLen with
  | none => some ⟨keyIv.ctx, none, ok⟩
  | some aad => do
    let update := e.aadUpdate d (← inputAt aad aadLen) keyIv.ctx
    return ⟨update.ctx, update.outl, ok && update.ok⟩

/-- `aes_gcm_encrypt`: what it returns, and the buffers `ciphertext` and `tag`
after it. -/
def aesGcmEncrypt (len : Int32) (plaintext : Mem UInt8) (plaintextLen : Int32) (aad : Option (Mem UInt8))
    (aadLen : Int32) (key iv : Mem UInt8) (ivLen : Int32) (ciphertext tag : Mem UInt8) :
    Option (Int32 × Mem UInt8 × Mem UInt8) := do
  let ctx ← e.ctxNew
  let prep ← evpPrepare e .encrypt aad aadLen key iv ivLen ctx
  let len := prep.outl.getD len
  let update := e.update .encrypt (← inputAt plaintext plaintextLen) prep.ctx
  let ciphertext := store ciphertext 0 update.out
  let len := update.outl.getD len
  let ciphertextLen := len
  let final := e.final .encrypt update.ctx
  let ciphertext := store ciphertext len.toInt final.out
  let len := final.outl.getD len
  let getTag := e.getTag tagLen final.ctx
  return (ciphertextLen + len, ciphertext, store tag 0 getTag.out)

/-- `aes_gcm_decrypt`: what it returns, and the buffer `plaintext` after
it. -/
def aesGcmDecrypt (len : Int32) (ciphertext : Mem UInt8) (ciphertextLen : Int32)
    (aad : Option (Mem UInt8)) (aadLen : Int32) (tag key iv : Mem UInt8) (ivLen : Int32)
    (plaintext : Mem UInt8) : Option (Int32 × Mem UInt8) := do
  let ctx ← e.ctxNew
  let prep ← evpPrepare e .decrypt aad aadLen key iv ivLen ctx
  let len := prep.outl.getD len
  let update := e.update .decrypt (← inputAt ciphertext ciphertextLen) prep.ctx
  let plaintext := store plaintext 0 update.out
  let len := update.outl.getD len
  let plaintextLen := len
  let setTag := e.setTag (bytesAt tag 0 tagLen) update.ctx
  let final := e.final .decrypt setTag.ctx
  let plaintext := store plaintext len.toInt final.out
  let len := final.outl.getD len
  return (if 0 < final.ret then plaintextLen + len else -1, plaintext)

end

/-! ## The writer -/

/-- What the writer has when it sends. -/
structure Written where
  ctLen : Int32
  cipherBuf : Mem UInt8
  tag : Mem UInt8
  sendBuf : Mem UInt8

/-- `IV_LEN + ct_len + TAG_LEN`, as the `size` of the call. -/
def frameSize (ctLen : Int32) : UInt64 := intToSize (.ofNat ivLen + ctLen + .ofNat tagLen)

/-- The writer packs `IV || ciphertext || tag`. -/
def packFrame (sendBuf iv cipherBuf : Mem UInt8) (ctLen : Int32) (tag : Mem UInt8) : Mem UInt8 :=
  let sendBuf := store sendBuf 0 (bytesAt iv 0 ivLen)
  let sendBuf := store sendBuf ivLen (bytesAt cipherBuf 0 (intToSize ctLen).toNat)
  store sendBuf (ivLen + ctLen.toInt) (bytesAt tag 0 tagLen)

/-- A turn of the writer's loop with `MESSAGE_SIZE` `messageSize`, up to the
send. -/
def writeFrame {Ctx : Type} (e : Evp Ctx) (len messageSize : Int32)
    (plaintext key iv cipherBuf tag sendBuf : Mem UInt8) : Option Written := do
  let sealed ← aesGcmEncrypt e len plaintext messageSize none 0 key iv (.ofNat ivLen) cipherBuf tag
  return {
    ctLen := sealed.1
    cipherBuf := sealed.2.1
    tag := sealed.2.2
    sendBuf := packFrame sendBuf iv sealed.2.1 sealed.1 sealed.2.2 }

/-! ## The reader -/

/-- The buffers that the reader splits `recv_buf` into. -/
structure Parts where
  iv : Mem UInt8
  cipherCt : Mem UInt8
  ctLen : Int32
  tag : Mem UInt8

/-- The reader splits what it received; `DECRYPT_MSG_SIZE` is `messageSize`. -/
def splitFrame (messageSize : Int32) (recvBuf : Mem UInt8) : Parts :=
  let ctLen := messageSize - .ofNat ivLen - .ofNat tagLen
  ⟨recvBuf, fun x => recvBuf (ivLen + x), ctLen, fun x => recvBuf (ivLen + ctLen.toInt + x)⟩

/-- The reader's call of `aes_gcm_decrypt`. -/
def openParts {Ctx : Type} (e : Evp Ctx) (len : Int32) (parts : Parts) (key plainBuf : Mem UInt8) :
    Option (Int32 × Mem UInt8) :=
  aesGcmDecrypt e len parts.cipherCt parts.ctLen none 0 parts.tag key parts.iv (.ofNat ivLen) plainBuf

end Ivshmem

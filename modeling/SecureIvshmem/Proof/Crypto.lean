import SecureIvshmem.Proof.Evp

/-!
# Encrypted frames, opened

The writer's frame is 28 bytes longer than its message. The reader receives as
many bytes, but takes the message's length for that of the whole frame when it
splits them, so that it never gets the writer's parts (`frame_misread`).
-/

namespace Ivshmem

open SharedMem SharedMem.Word

/-- The reader's parts are the writer's, and open to the message. -/
structure Recovers (messageSize : Int32) (plaintext iv : Mem UInt8) (w : Written) (parts : Parts)
    (opened : Option (Int32 × Mem UInt8)) : Prop where
  iv : bytesAt parts.iv 0 ivLen = bytesAt iv 0 ivLen
  ctLen : parts.ctLen = w.ctLen
  ciphertext : bytesAt parts.cipherCt 0 w.ctLen.toInt.toNat = bytesAt w.cipherBuf 0 w.ctLen.toInt.toNat
  tag : bytesAt parts.tag 0 tagLen = bytesAt w.tag 0 tagLen
  plaintext : ∃ buf, opened = some (messageSize, buf) ∧
    bytesAt buf 0 messageSize.toInt.toNat = bytesAt plaintext 0 messageSize.toInt.toNat

/-- The reader's parts are the writer's IV, the ciphertext but for its last 28
bytes, and for the tag the 16 bytes that follow in the ciphertext. -/
structure Misread (messageSize : Int32) (iv : Mem UInt8) (w : Written) (parts : Parts) : Prop where
  iv : bytesAt parts.iv 0 ivLen = bytesAt iv 0 ivLen
  ctLen : parts.ctLen.toInt = messageSize.toInt - 28
  ciphertext : 28 ≤ messageSize.toInt → bytesAt parts.cipherCt 0 parts.ctLen.toInt.toNat =
    bytesAt w.cipherBuf 0 parts.ctLen.toInt.toNat
  tag : 28 ≤ messageSize.toInt → bytesAt parts.tag 0 tagLen = bytesAt w.cipherBuf parts.ctLen.toInt tagLen

theorem ivLen_toInt : (Int32.ofNat ivLen).toInt = 12 := by decide

theorem tagLen_toInt : (Int32.ofNat tagLen).toInt = 16 := by decide

section

variable {n : Int32} (hn : 0 ≤ n.toInt)
include hn

/-- A frame has room for the IV and the ciphertext, also where its size
overflows. -/
theorem ivLen_add_le_frameSize : ivLen + n.toInt ≤ (frameSize n).toNat := by
  have hlt := n.toInt_lt
  have hiv := ivLen_toInt
  have htag := tagLen_toInt
  rw [frameSize]
  rcases Int.lt_or_le (Int32.ofNat ivLen + n + .ofNat tagLen).toInt 0 with hneg | hpos
  · have := intToSize_toNat_neg hneg
    have := (Int32.ofNat ivLen + n + .ofNat tagLen).le_toInt
    show 12 + _ ≤ _
    omega
  · rw [intToSize_toNat hpos]
    rcases Int.lt_or_le (n.toInt + 28) (2 ^ 31) with h | h
    · have h1 := toInt_add (x := .ofNat ivLen) (y := n) (by omega) (by omega)
      have h2 := toInt_add (x := .ofNat ivLen + n) (y := .ofNat tagLen) (by omega) (by omega)
      show 12 + _ ≤ _
      omega
    · -- the sum overflows, and cannot be positive
      rcases Int.lt_or_le (n.toInt + 12) (2 ^ 31) with h' | h'
      · have h1 := toInt_add (x := .ofNat ivLen) (y := n) (by omega) (by omega)
        have h2 := toInt_add_wrap (x := .ofNat ivLen + n) (y := .ofNat tagLen) (by omega)
        omega
      · have h1 := toInt_add_wrap (x := .ofNat ivLen) (y := n) (by omega)
        have h2 := toInt_add (x := .ofNat ivLen + n) (y := .ofNat tagLen) (by omega) (by omega)
        omega

/-- The length that the reader takes for that of the ciphertext. -/
theorem splitFrame_ctLen (recvBuf : Mem UInt8) : (splitFrame n recvBuf).ctLen.toInt = n.toInt - 28 := by
  have hlt := n.toInt_lt
  show (n - .ofNat ivLen - .ofNat tagLen).toInt = _
  have h1 : (n - .ofNat ivLen).toInt = n.toInt - 12 := by
    rw [Int32.toInt_sub, ivLen_toInt]
    exact Int.bmod_eq_of_le (by omega) (by omega)
  rw [Int32.toInt_sub, h1, tagLen_toInt]
  exact (Int.bmod_eq_of_le (by omega) (by omega)).trans (by omega)

end

section

variable (sendBuf iv cipherBuf : Mem UInt8) {ctLen : Int32} (h : 0 ≤ ctLen.toInt) (tag : Mem UInt8)
  {i : Nat}
include h

/-- The IV is at the start of the frame. -/
theorem packFrame_iv (hi : i < ivLen) : packFrame sendBuf iv cipherBuf ctLen tag i = iv i := by
  unfold packFrame
  have hlen : i < (bytesAt iv 0 ivLen).length := by rwa [length_bytesAt]
  rw [store_of_outside (.inl (by omega)), store_of_outside (.inl (by omega)), ← Int.zero_add (i : Int),
    store_of_inside hlen, getElem_bytesAt]

/-- The ciphertext comes after it. -/
theorem packFrame_ciphertext (hi : i < ctLen.toInt) :
    packFrame sendBuf iv cipherBuf ctLen tag (ivLen + i) = cipherBuf i := by
  have hsize := intToSize_toNat h
  have hlen : i < (bytesAt cipherBuf 0 (intToSize ctLen).toNat).length := by
    rw [length_bytesAt, hsize]
    omega
  unfold packFrame
  rw [store_of_outside (.inl (by omega)), store_of_inside hlen, getElem_bytesAt, Int.zero_add]

end

section

variable {Ctx : Type} {e : Evp Ctx} {g : Gcm} {given : Ctx → EvpGiven} (he : e.Documented g given)
  (hg : g.Lawful) {messageSize : Int32} (hn : 0 ≤ messageSize) {plaintext key iv : Mem UInt8}
  (hcalls : (encryptCalls e plaintext messageSize none 0 key iv (.ofNat ivLen)).any EvpCalls.ok = true)
  {len : Int32} {cipherBuf tag sendBuf : Mem UInt8} {w : Written}
  (hw : writeFrame e len messageSize plaintext key iv cipherBuf tag sendBuf = some w)
include he hg hn hcalls hw

/-- The writer's ciphertext is as long as its message, and is packed into the
frame. -/
theorem writeFrame_eq :
    w.ctLen = messageSize ∧ w.sendBuf = packFrame sendBuf iv w.cipherBuf messageSize w.tag := by
  obtain ⟨c, hc, hok⟩ := (Option.any_eq_true _ _).mp hcalls
  have hencrypt := aesGcmEncrypt_of_ok he hn (Int32.le_refl 0) hg hc hok len cipherBuf tag
  simp only [writeFrame, hencrypt, Option.bind_eq_bind, Option.bind_some, Option.pure_def] at hw
  obtain rfl := Option.some.inj hw
  exact ⟨rfl, rfl⟩

/-- What the reader takes for the parts of a frame that it has received
whole. -/
theorem splitFrame_misread {recvBuf : Mem UInt8}
    (hrecv : bytesAt recvBuf 0 (frameSize w.ctLen).toNat =
      bytesAt w.sendBuf 0 (frameSize w.ctLen).toNat) :
    Misread messageSize iv w (splitFrame messageSize recvBuf) := by
  obtain ⟨hct, hsend⟩ := writeFrame_eq he hg hn hcalls hw
  have hpos : 0 ≤ messageSize.toInt := Int32.le_iff_toInt_le.mp hn
  have hsize := ivLen_add_le_frameSize hpos
  have hctLen := splitFrame_ctLen hpos recvBuf
  rw [hct, hsend] at hrecv
  have hcipher : ∀ i : Nat, (i : Int) < messageSize.toInt →
      recvBuf (ivLen + i) = w.cipherBuf i := fun i hi => by
    have hlt : ivLen + i < (frameSize messageSize).toNat := by omega
    have := apply_of_bytesAt_eq hrecv hlt
    rwa [Int.zero_add, Int.natCast_add, packFrame_ciphertext sendBuf iv w.cipherBuf hpos w.tag hi] at this
  refine ⟨bytesAt_congr fun i hi => ?_, hctLen, fun h28 => bytesAt_congr fun i hi => ?_,
    fun h28 => bytesAt_congr fun i hi => ?_⟩
  · have := apply_of_bytesAt_eq hrecv (show i < (frameSize messageSize).toNat by omega)
    rw [Int.zero_add, packFrame_iv sendBuf iv w.cipherBuf hpos w.tag hi] at this
    rwa [Int.zero_add]
  · rw [Int.zero_add]
    exact hcipher i (by omega)
  · -- the tag is taken at `IV_LEN + ct_len`
    have hnat : ((splitFrame messageSize recvBuf).ctLen.toInt.toNat : Int) =
        (splitFrame messageSize recvBuf).ctLen.toInt :=
      Int.toNat_of_nonneg (by omega)
    have := hcipher ((splitFrame messageSize recvBuf).ctLen.toInt.toNat + i)
      (by simp only [tagLen] at hi; omega)
    rw [Int.natCast_add, hnat] at this
    show recvBuf (ivLen + (splitFrame messageSize recvBuf).ctLen.toInt + (0 + i)) = _
    rw [Int.zero_add, Int.add_assoc]
    exact this

end

/-- What the writer has for the message of counter 0. -/
def writtenZeros : Option Written :=
  writeFrame gcmFromZeros.evp 0 32 (fun _ => 0) (store (fun _ => 0) 0 programKey) (fun _ => 0)
    (fun _ => 0) (fun _ => 0) (fun _ => 0)

end Ivshmem

import Penglai.Gm.OcbRefinement

namespace Penglai.Gm

/-! # OCB decryption in the code

`SM4_OCB_Decrypt` recovers the OCB3 plaintext and answers zero exactly if the
tag it received is the tag of that plaintext. -/

open Ocb (ofBytes toBytes)

def sm4Decipher (key : Bytes 16) (block : Ocb.Block) : Ocb.Block :=
  ofBytes (sm4Decrypt key (toBytes block))

@[simp] theorem sm4Decipher_ofBytes (key block : Bytes 16) :
    sm4Decipher key (ofBytes block) = ofBytes (sm4Decrypt key block) := by
  rw [sm4Decipher, Ocb.toBytes_ofBytes]

theorem sm4Decipher_sm4Cipher (key : Bytes 16) (block : Ocb.Block) :
    sm4Decipher key (sm4Cipher key block) = block := by
  rw [sm4Decipher, sm4Cipher, Ocb.toBytes_ofBytes, sm4Decrypt_sm4Encrypt, Ocb.ofBytes_toBytes]

theorem sm4Cipher_sm4Decipher (key : Bytes 16) (block : Ocb.Block) :
    sm4Cipher key (sm4Decipher key block) = block := by
  rw [sm4Decipher, sm4Cipher, Ocb.toBytes_ofBytes, sm4Encrypt_sm4Decrypt, Ocb.ofBytes_toBytes]

/-! ## The tag comparison -/

private theorem diff_eq_zero_iff (checksum : Bytes 16) (count : Nat) :
    forRange 0 count (fun i diff => diff ||| checksum[i]!) (0 : UInt8) = 0 ↔
      ∀ i < count, checksum[i]! = 0 := by
  induction count with
  | zero => simp
  | succ count induction =>
      rw [forRange_succ, UInt8.or_eq_zero_iff, induction, Nat.zero_add]
      constructor
      · rintro ⟨earlier, last⟩ i inside
        rcases Nat.lt_succ_iff_lt_or_eq.mp inside with before | here
        · exact earlier i before
        · rw [here, last]
      · intro all
        exact ⟨fun i inside => all i (by omega), all count (by omega)⟩

theorem tagDiff_eq_zero_iff (computed received : Bytes 16) :
    (forRange 0 16 (fun i diff => diff ||| (xor16 computed received)[i]!) (0 : UInt8)).toUInt32 =
      0 ↔ computed = received := by
  have widened : ∀ diff : UInt8, diff.toUInt32 = 0 ↔ diff = 0 := by
    intro diff
    rw [← UInt32.toNat_inj, UInt8.toNat_toUInt32, ← UInt8.toNat_inj]
    rfl
  rw [widened, diff_eq_zero_iff]
  constructor
  · intro zero
    apply Vector.ext
    intro cell inside
    have here := zero cell inside
    rw [getElem!_pos _ cell inside, xor16, Vector.getElem_zipWith] at here
    exact UInt8.xor_eq_zero_iff.mp here
  · rintro rfl cell inside
    rw [getElem!_pos _ cell inside, xor16, Vector.getElem_zipWith, UInt8.xor_self]

/-! ## The partial block -/

theorem decryptRest_spec {key lAsterisk : Bytes 16} {encrypted cipher : List UInt8}
    {start : Ocb.Block} {state : OcbState}
    (asterisk : ofBytes lAsterisk = Ocb.lStar (sm4Cipher key))
    (offset : ofBytes state.offset =
      Ocb.offsetAt (sm4Cipher key) start (cipher.length / 16))
    (checksum : ofBytes state.checksum =
      Ocb.checksum (Ocb.body (sm4Cipher key) (sm4Decipher key) start cipher)
        (cipher.length / 16))
    (agree : ∀ index < cipher.length, encrypted.getD index 0 = cipher.getD index 0)
    (nonempty : cipher.length % 16 ≠ 0) :
    let after := decryptRest key encrypted lAsterisk (cipher.length % 16)
      (16 * (cipher.length / 16)) state
    after.out.bytes 0 cipher.length =
      state.out.bytes 0 (16 * (cipher.length / 16)) ++
      List.zipWith (· ^^^ ·) (Ocb.rest cipher)
        (toBytes (sm4Cipher key (Ocb.offsetAt (sm4Cipher key) start (Ocb.blocks cipher) ^^^
          Ocb.lStar (sm4Cipher key)))).toList ∧
    (∀ index, cipher.length ≤ index → after.out.get index = state.out.get index) ∧
    ofBytes after.checksum ^^^ ofBytes after.offset =
      Ocb.tagSum (sm4Cipher key) start
        (Ocb.body (sm4Cipher key) (sm4Decipher key) start cipher) := by
  intro after
  let base := 16 * (cipher.length / 16)
  let mask := sm4Encrypt key (xor16 state.offset lAsterisk)
  let pad := forRange 0 (cipher.length % 16)
    (fun i pad => pad.set! i (pad[i]! ^^^ encrypted.getD (base + i) 0)) mask
  have restLength := Ocb.rest_length cipher
  have lastOffset : ofBytes (xor16 state.offset lAsterisk) =
      Ocb.offsetAt (sm4Cipher key) start (Ocb.blocks cipher) ^^^ Ocb.lStar (sm4Cipher key) := by
    rw [ofBytes_xor16, offset, asterisk]
    rfl
  have padCells : ∀ cell < cipher.length % 16,
      pad[cell]! = mask[cell]! ^^^ (Ocb.rest cipher).getD cell 0 := by
    intro cell inside
    simp only [pad]
    rw [getElem!_forRange_set_here, if_pos (by omega), agree (base + cell) (by omega), rest_getD]
    intro done bound other same
    rw [same (0 + done) (by omega)]
  have cells : ∀ index, after.out.get index =
      if base ≤ index ∧ index < base + cipher.length % 16 then pad[index - base]!
      else state.out.get index :=
    Buffer.get_forRange_set base (cipher.length % 16) (fun i _ => pad[i]!) state.out
  have plainRest : Ocb.rest (Ocb.body (sm4Cipher key) (sm4Decipher key) start cipher) =
      List.zipWith (· ^^^ ·) (Ocb.rest cipher) mask.toList := by
    rw [Ocb.rest_body, ← lastOffset, sm4Cipher_ofBytes, Ocb.toBytes_ofBytes]
  refine ⟨?_, ?_, ?_⟩
  · rw [← lastOffset, sm4Cipher_ofBytes, Ocb.toBytes_ofBytes]
    apply bytes_xorRest
    · intro index inside
      rw [cells, if_neg (by omega)]
    · intro index inside
      have here : 16 * (cipher.length / 16) + index - base = index := Nat.add_sub_cancel_left ..
      rw [cells, if_pos (by omega), here, padCells index (by omega)]
  · intro index past
    rw [cells, if_neg (by omega)]
  · have plainLength :
        (Ocb.rest (Ocb.body (sm4Cipher key) (sm4Decipher key) start cipher)).length =
          cipher.length % 16 := by
      rw [Ocb.rest_length, Ocb.body_length]
    have padded := ofBytes_checksumRest (fun i => pad[i]!)
      (show (Ocb.rest (Ocb.body (sm4Cipher key) (sm4Decipher key) start cipher)).length < 16 by
        omega)
      (by
        intro index inside
        have bound : index < cipher.length % 16 := by omega
        have valid : index < 16 := by omega
        rw [padCells index bound, plainRest, getElem!_pos mask index valid]
        simp [bound, valid, UInt8.xor_comm])
      state.checksum
    rw [plainLength] at padded
    have sum : ofBytes after.checksum =
        Ocb.checksum (Ocb.body (sm4Cipher key) (sm4Decipher key) start cipher)
          (cipher.length / 16) ^^^
        Ocb.padded (Ocb.rest (Ocb.body (sm4Cipher key) (sm4Decipher key) start cipher)) := by
      rw [← checksum]
      exact padded
    have partialRest : Ocb.rest (Ocb.body (sm4Cipher key) (sm4Decipher key) start cipher) ≠ [] := by
      rw [ne_eq, rest_eq_nil_iff, Ocb.body_length]
      exact nonempty
    rw [sum, Ocb.tagSum, if_neg partialRest, Ocb.blocks_body, ← lastOffset]
    rfl

/-! ## Decryption -/

private theorem getD_append_left {front back : List UInt8} {index : Nat}
    (inside : index < front.length) : (front ++ back).getD index 0 = front.getD index 0 := by
  simp [List.getElem?_append_left inside]

private theorem copied_wholeBlock (out : Buffer) (cipher behind : List UInt8) {index : Nat}
    (whole : index < cipher.length / 16) :
    (out.copy 0 ((cipher ++ behind).take (16 * (cipher.length / 16)))).block 16 (16 * index) =
      blockAt 16 cipher index := by
  let full := 16 * (cipher.length / 16)
  have wholeCipher : (cipher ++ behind).take full = cipher.take full :=
    List.take_append_of_le_length (by omega)
  have complete : index < (cipher.take full).length / 16 := by
    rw [List.length_take, Nat.min_eq_left (by omega)]
    omega
  have same : blockAt 16 (cipher.take full ++ cipher.drop full) index =
      blockAt 16 (cipher.take full) index := blockAt_append complete
  rw [List.take_append_drop] at same
  rw [wholeCipher, copied_block out _ complete, same]

private theorem ofBytes_ocbChecksum_blocks {key : Bytes 16} {F : Ocb.Block → Ocb.Block}
    {start : Ocb.Block} {cipher : List UInt8} {out : Buffer}
    (blocks : out.bytes 0 (16 * (cipher.length / 16)) =
      (List.range (Ocb.blocks cipher)).flatMap fun index =>
        (toBytes (Ocb.masked F (Ocb.offsetAt (sm4Cipher key) start (index + 1))
          (Ocb.blockOf cipher index))).toList) :
    ofBytes (ocbChecksum out.get (16 * (cipher.length / 16))) =
      Ocb.checksum (Ocb.body (sm4Cipher key) F start cipher) (cipher.length / 16) := by
  have plainFull : (Ocb.body (sm4Cipher key) F start cipher).take (16 * (cipher.length / 16)) =
      out.bytes 0 (16 * (cipher.length / 16)) := by
    rw [blocks]
    apply List.take_left'
    rw [length_flatMap_blocks]
    rfl
  apply ofBytes_ocbChecksum
  intro index inside
  rw [← Buffer.getD_bytes out inside, ← plainFull]
  simp [inside]

/-- `SM4_OCB_Decrypt` on a ciphertext and a tag: the OCB3 plaintext is written,
and the status is zero exactly if the tag is the one of that plaintext. -/
theorem sm4OcbDecrypt_spec (key : Bytes 16) {nonce cipher associatedData : List UInt8}
    (short : nonce.length ≤ 15) (cipherBound : cipher.length < 2 ^ 31)
    (associatedBound : associatedData.length < 2 ^ 31)
    (hasBlock : 16 ≤ cipher.length ∨ 16 ≤ associatedData.length)
    (received stale : Bytes 16) (out : Buffer) :
    let start := Ocb.initialOffset (sm4Cipher key) nonce
    let plain := Ocb.body (sm4Cipher key) (sm4Decipher key) start cipher
    ∃ status after,
      sm4OcbDecrypt key nonce (cipher ++ received.toList) associatedData cipher.length stale out =
        some (status, after) ∧
      after.bytes 0 cipher.length = plain ∧
      (status = 0 ↔ toBytes (Ocb.tag (sm4Cipher key) start associatedData plain) = received) ∧
      ∀ index, cipher.length ≤ index → after.get index = out.get index := by
  intro start plain
  let encrypted := cipher ++ received.toList
  let full := 16 * (cipher.length / 16)
  have receivedIs : (Vector.ofFn fun i : Fin 16 => encrypted.getD (cipher.length + i.val) 0) =
      received := by
    apply Vector.ext
    intro cell inside
    simp [encrypted]
  rcases ocbSetup_spec key short cipherBound associatedBound hasBlock with
    ⟨setup, prepared, setupFor⟩
  rcases ocbBlocks_spec setupFor.messageTable
    (fun block => (sm4Decipher_ofBytes key block).symm) setup.offset
    (out.copy 0 (encrypted.take full)) with ⟨⟨offset, blocksOut⟩, looped, blocksDone⟩
  rw [setupFor.offset] at blocksDone
  have blocks := blocksDone.bytes_eq
    fun index whole => copied_wholeBlock out cipher received.toList whole
  let state : OcbState := ⟨offset, blocksOut, ocbChecksum blocksOut.get full⟩
  have atOffset : ofBytes state.offset = _ := blocksDone.offset
  have checksum : ofBytes state.checksum = Ocb.checksum plain (cipher.length / 16) :=
    ofBytes_ocbChecksum_blocks blocks
  let rest := decryptRest key encrypted setup.lAsterisk (cipher.length % 16) full state
  have done : TextDone key (sm4Decipher key) start cipher plain out cipher.length
      (if cipher.length % 16 > 0 then rest else state) := by
    apply textDone_of_rest blocks
    · intro index past
      have copied : (encrypted.take full).length ≤ full := List.length_take_le _ _
      rw [blocksDone.untouched index (by omega), Buffer.get_copy_of_ge (by omega)]
    · intro whole
      have plainRestNil : Ocb.rest plain = [] := by
        rw [rest_eq_nil_iff, Ocb.body_length]
        exact whole
      rw [Ocb.tagSum, if_pos plainRestNil, Ocb.blocks_body, checksum, atOffset]
      rfl
    · intro more
      exact decryptRest_spec setupFor.lAsterisk atOffset checksum
        (fun index inside => getD_append_left inside) more
  let last := if cipher.length % 16 > 0 then rest else state
  let tag := toBytes (Ocb.tag (sm4Cipher key) start associatedData plain)
  let status := (forRange 0 16
    (fun i diff => diff ||| (xor16 tag received)[i]!) (0 : UInt8)).toUInt32
  refine ⟨status, last.out, ?_, done.bytes, tagDiff_eq_zero_iff tag received, done.frame⟩
  have tagged := done.ocbTag setupFor stale
  simp only [sm4OcbDecrypt, prepared, Option.bind_eq_bind, Option.bind_some,
    fullBlockLength_eq]
  simp only [encrypted, full] at looped receivedIs
  simp only [rest, state, full, encrypted] at tagged
  rw [looped, receivedIs]
  simp only [Option.bind_some]
  rw [tagged]
  rfl

/-! ## What decryption accepts -/

def OcbEncrypts (key : Bytes 16) (nonce associatedData : List UInt8) (stale : Bytes 16)
    (out : Buffer) (message encrypted : List UInt8) : Prop :=
  ∃ after, sm4OcbEncrypt key nonce message associatedData stale out = some after ∧
    after.bytes 0 (message.length + 16) = encrypted

def OcbDecrypts (key : Bytes 16) (nonce associatedData : List UInt8) (stale : Bytes 16)
    (out : Buffer) (cipher : List UInt8) (received : Bytes 16) (status : UInt32)
    (message : List UInt8) : Prop :=
  ∃ after, sm4OcbDecrypt key nonce (cipher ++ received.toList) associatedData cipher.length
      stale out = some (status, after) ∧
    after.bytes 0 cipher.length = message

theorem OcbEncrypts.length_eq {key : Bytes 16} {nonce associatedData : List UInt8}
    {stale : Bytes 16} {out : Buffer} {message cipher : List UInt8} {received : Bytes 16}
    (encrypts : OcbEncrypts key nonce associatedData stale out message
      (cipher ++ received.toList)) : message.length = cipher.length := by
  rcases encrypts with ⟨after, _, bytes⟩
  have lengths := congrArg List.length bytes
  rw [Buffer.bytes_length, List.length_append, Vector.length_toList] at lengths
  omega

section Lengths

variable {nonce associatedData : List UInt8} (short : nonce.length ≤ 15)
  (associatedBound : associatedData.length < 2 ^ 31)

include short associatedBound

theorem ocbEncrypts_iff (key stale : Bytes 16) (out : Buffer) {message : List UInt8}
    (bound : message.length < 2 ^ 31)
    (hasBlock : 16 ≤ message.length ∨ 16 ≤ associatedData.length) (encrypted : List UInt8) :
    OcbEncrypts key nonce associatedData stale out message encrypted ↔
      Ocb.encrypt (sm4Cipher key) nonce associatedData message = encrypted := by
  rcases sm4OcbEncrypt_spec key short bound associatedBound hasBlock stale out with
    ⟨after, produced, bytes, _⟩
  rw [OcbEncrypts, produced]
  simp only [Option.some.injEq, exists_eq_left', bytes]

theorem ocbDecrypts_zero_iff (key stale : Bytes 16) (out : Buffer) {cipher : List UInt8}
    (bound : cipher.length < 2 ^ 31)
    (hasBlock : 16 ≤ cipher.length ∨ 16 ≤ associatedData.length) (received : Bytes 16)
    (message : List UInt8) :
    OcbDecrypts key nonce associatedData stale out cipher received 0 message ↔
      Ocb.decrypt (sm4Cipher key) (sm4Decipher key) nonce associatedData cipher received =
        some message := by
  rcases sm4OcbDecrypt_spec key short bound associatedBound hasBlock received stale out with
    ⟨status, after, produced, bytes, accepted, _⟩
  rw [OcbDecrypts, produced, Ocb.decrypt, Option.ite_none_right_eq_some, ← accepted,
    Option.some.injEq, ← bytes]
  simp only [Option.some.injEq, Prod.mk.injEq]
  constructor
  · rintro ⟨_, ⟨zero, rfl⟩, output⟩
    exact ⟨zero, output⟩
  · rintro ⟨zero, output⟩
    exact ⟨after, ⟨zero, rfl⟩, output⟩

/-- Decryption accepts exactly what encryption produces: it outputs `message`
with status zero if and only if the encryption of `message` is the given string;
so it inverts encryption, and it rejects every string that is not the encryption
of the plaintext it recovers. -/
theorem ocbDecrypts_iff_ocbEncrypts (key decryptStale encryptStale : Bytes 16)
    (decryptOut encryptOut : Buffer) {cipher : List UInt8} (bound : cipher.length < 2 ^ 31)
    (hasBlock : 16 ≤ cipher.length ∨ 16 ≤ associatedData.length) (received : Bytes 16) :
    (∀ message,
      OcbDecrypts key nonce associatedData decryptStale decryptOut cipher received 0 message ↔
        OcbEncrypts key nonce associatedData encryptStale encryptOut message
          (cipher ++ received.toList)) ∧
    (∀ message : List UInt8, message.length < 2 ^ 31 →
      (16 ≤ message.length ∨ 16 ≤ associatedData.length) →
      ∃ produced tag, OcbEncrypts key nonce associatedData encryptStale encryptOut message
          (produced ++ Vector.toList tag) ∧
        OcbDecrypts key nonce associatedData decryptStale decryptOut produced tag 0 message) ∧
    (∃ status message,
      OcbDecrypts key nonce associatedData decryptStale decryptOut cipher received status
        message ∧
      (¬ OcbEncrypts key nonce associatedData encryptStale encryptOut message
          (cipher ++ received.toList) → status ≠ 0)) := by
  have accepts : ∀ message,
      OcbDecrypts key nonce associatedData decryptStale decryptOut cipher received 0 message ↔
        OcbEncrypts key nonce associatedData encryptStale encryptOut message
          (cipher ++ received.toList) := by
    intro message
    rw [ocbDecrypts_zero_iff short associatedBound key decryptStale decryptOut bound hasBlock,
      Ocb.decrypt_eq_some_iff (sm4Decipher_sm4Cipher key) (sm4Cipher_sm4Decipher key)]
    constructor
    · intro produced
      have lengths := congrArg List.length produced
      rw [Ocb.encrypt, List.length_append, Ocb.body_length, List.length_append,
        Vector.length_toList, Vector.length_toList] at lengths
      rw [ocbEncrypts_iff short associatedBound key encryptStale encryptOut (by omega) (by omega)]
      exact produced
    · intro encrypts
      have lengths := encrypts.length_eq
      rwa [ocbEncrypts_iff short associatedBound key encryptStale encryptOut (by omega)
        (by omega)] at encrypts
  refine ⟨accepts, ?_, ?_⟩
  · intro message messageBound messageBlock
    let start := Ocb.initialOffset (sm4Cipher key) nonce
    let produced := Ocb.body (sm4Cipher key) (sm4Cipher key) start message
    let tag := toBytes (Ocb.tag (sm4Cipher key) start associatedData message)
    have producedLength : produced.length = message.length := Ocb.body_length _ _ _
    refine ⟨produced, tag, ?_, ?_⟩
    · rw [ocbEncrypts_iff short associatedBound key encryptStale encryptOut messageBound
        messageBlock]
      rfl
    · rw [ocbDecrypts_zero_iff short associatedBound key decryptStale decryptOut (by omega)
        (by omega),
        Ocb.decrypt_eq_some_iff (sm4Decipher_sm4Cipher key) (sm4Cipher_sm4Decipher key)]
      rfl
  · obtain ⟨status, after, decrypted, _⟩ :=
      sm4OcbDecrypt_spec key short bound associatedBound hasBlock received decryptStale decryptOut
    refine ⟨status, _, ⟨after, decrypted, rfl⟩, ?_⟩
    rintro different rfl
    exact different ((accepts _).mp ⟨after, decrypted, rfl⟩)

end Lengths

theorem ocbDecrypts_iff_ocbEncrypts_seventeen :
    let cipher : List UInt8 := List.replicate 17 7
    let received : Bytes 16 := zeroBlock
    (∀ message,
      OcbDecrypts zeroBlock [1, 2, 3] [] zeroBlock ⟨fun _ => 0⟩ cipher received 0 message ↔
        OcbEncrypts zeroBlock [1, 2, 3] [] zeroBlock ⟨fun _ => 0⟩ message
          (cipher ++ received.toList)) ∧
    (∀ message : List UInt8, message.length < 2 ^ 31 →
      (16 ≤ message.length ∨ 16 ≤ ([] : List UInt8).length) →
      ∃ produced tag, OcbEncrypts zeroBlock [1, 2, 3] [] zeroBlock ⟨fun _ => 0⟩ message
          (produced ++ Vector.toList tag) ∧
        OcbDecrypts zeroBlock [1, 2, 3] [] zeroBlock ⟨fun _ => 0⟩ produced tag 0 message) ∧
    (∃ status message,
      OcbDecrypts zeroBlock [1, 2, 3] [] zeroBlock ⟨fun _ => 0⟩ cipher received status message ∧
      (¬ OcbEncrypts zeroBlock [1, 2, 3] [] zeroBlock ⟨fun _ => 0⟩ message
          (cipher ++ received.toList) → status ≠ 0)) :=
  ocbDecrypts_iff_ocbEncrypts (by decide) (by decide) zeroBlock zeroBlock zeroBlock
    ⟨fun _ => 0⟩ ⟨fun _ => 0⟩ (by decide) (Or.inl (by decide)) zeroBlock

end Penglai.Gm

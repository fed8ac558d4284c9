import Penglai.SignTool.Nonce

namespace Penglai.SignTool

open Gm

/-! # What "Succeed." stands for

The tool checks one thing, that the signature verifies over the bytes of
`enclave_hash`. The results below say in which environments that is enough. -/

/-- The load that the two files and the texts of the command line describe. -/
structure SignEnv.Gives (env : SignEnv) (load : Load) : Prop where
  image : ∃ fd file, env.image = .mapped fd file ∧ file.contents = load.bin
  dtb : ∃ fd file, env.dtb = .mapped fd file ∧ file.contents = load.dtb
  binLoadaddr : WritesHex env.path.imageLdaddr.toList load.binLoadaddr.toNat
  dtbLoadaddr : WritesHex env.path.dtbLdaddr.toList load.dtbLoadaddr.toNat

/-- A file is written and "Succeed." printed only for a css that certifies the two
given files at the two given addresses. -/
def Certifies (env : SignEnv) : Outcome → Prop
  | .killed => True
  | .refused _ => True
  | .succeed run output =>
      output = some (cssBytes run.css) ∧
      -- the load itself is the given one; two loads could share a hash
      (∃ load, env.Gives load ∧ env.measuredLoad? = some load ∧
        run.css.enclaveHash = load.measurement) ∧
      run.parseStatus = 0 ∧ run.signStatus = 0 ∧
      sm2Verify (hashMessage run.css.enclaveHash)
        ⟨run.css.userPubKeyX, run.css.userPubKeyY⟩
        ⟨run.css.signatureR, run.css.signatureS⟩ = 0

def SignEnv.staleSignature (env : SignEnv) : Signature :=
  ⟨env.staleCss.signatureR, env.staleCss.signatureS⟩

def SignEnv.StoresAll (env : SignEnv) : Prop := ∃ count, env.stored = some count ∧ 160 ≤ count

def SignEnv.AddressesFit (env : SignEnv) : Prop :=
  (∃ value < 2 ^ 63, WritesHex env.path.imageLdaddr.toList value) ∧
    ∃ value < 2 ^ 63, WritesHex env.path.dtbLdaddr.toList value

/-- The environments in which the tool keeps to its purpose: it is killed before the
key is used, or the key has no public key, or `SM2_Sign` fails and the old signature
bytes do not verify, or nothing fails and both addresses fit. -/
def Sound (env : SignEnv) : Prop :=
  LoadKills env ∨ env.keyText = none ∨
  ∃ keyText, env.keyText = some keyText ∧
    (sm2N ∣ (scanPrivKey env.stalePrivateKey keyText).toNat ∨
    ((sm2SignWith (hashMessage (hashAfterLoad env))
        (scanPrivKey env.stalePrivateKey keyText) signNonce).1 ≠ 0 ∧
      sm2Verify (hashMessage (hashAfterLoad env))
        (sm2MakePubkey (scanPrivKey env.stalePrivateKey keyText)).2 env.staleSignature ≠ 0) ∨
    ((sm2SignWith (hashMessage (hashAfterLoad env))
        (scanPrivKey env.stalePrivateKey keyText) signNonce).1 = 0 ∧
      env.measuredLoad?.isSome = true ∧ env.AddressesFit ∧ env.StoresAll))

theorem cssBytes_length (css : EnclaveCss) : (cssBytes css).length = 160 := by
  simp [cssBytes]

theorem writeDataToFile_eq_iff (env : SignEnv) (css : EnclaveCss) :
    writeDataToFile env css = some (cssBytes css) ↔ env.StoresAll := by
  have whole : ∀ count, (cssBytes css).take count = cssBytes css ↔ 160 ≤ count := by
    intro count
    rw [List.take_eq_self_iff, cssBytes_length]
  simp only [writeDataToFile, Option.map_eq_some_iff, whole, SignEnv.StoresAll]

theorem gives_iff {env : SignEnv} {load : Load} (measured : env.measuredLoad? = some load) :
    env.Gives load ↔ env.AddressesFit := by
  rw [SignEnv.AddressesFit, ← writesHex_ofInt_strtol16_iff, ← writesHex_ofInt_strtol16_iff]
  rw [SignEnv.measuredLoad?] at measured
  cases image : env.image with
  | mapped imageFd imageFile =>
      cases dtb : env.dtb with
      | mapped dtbFd dtbFile =>
          simp only [image, dtb, Option.some.injEq] at measured
          subst measured
          constructor
          · intro gives
            exact ⟨gives.binLoadaddr, gives.dtbLoadaddr⟩
          · rintro ⟨bin, tree⟩
            exact ⟨⟨_, _, image, rfl⟩, ⟨_, _, dtb, rfl⟩, bin, tree⟩
      | _ => simp [image, dtb] at measured
  | _ => simp [image] at measured

theorem certifies_conclude_iff (env : SignEnv) (privateKey : Bytes 32) (made : Nat × PublicKey)
    (signed : Nat × Option Signature) :
    Certifies env (conclude env (runOf env (hashAfterLoad env) privateKey made signed)) ↔
      sm2Verify (hashMessage (hashAfterLoad env)) made.2
          (signed.2.getD env.staleSignature) ≠ 0 ∨
      (env.StoresAll ∧ (env.measuredLoad?.isSome = true ∧ env.AddressesFit) ∧ made.1 = 0 ∧
        signed.1 = 0) := by
  by_cases accepted : sm2Verify (hashMessage (hashAfterLoad env)) made.2
      (signed.2.getD env.staleSignature) = 0
  · have measured : (∃ load, env.Gives load ∧ env.measuredLoad? = some load ∧
        hashAfterLoad env = load.measurement) ↔
          env.measuredLoad?.isSome = true ∧ env.AddressesFit := by
      rw [Option.isSome_iff_exists]
      constructor
      · rintro ⟨load, gives, known, _⟩
        exact ⟨⟨load, known⟩, (gives_iff known).mp gives⟩
      · rintro ⟨⟨load, known⟩, fit⟩
        exact ⟨load, (gives_iff known).mpr fit, known, hashAfterLoad_of_mapped known⟩
    have concluded : conclude env (runOf env (hashAfterLoad env) privateKey made signed) =
        .succeed (runOf env (hashAfterLoad env) privateKey made signed)
          (writeDataToFile env (runOf env (hashAfterLoad env) privateKey made signed).css) :=
      if_neg (not_not.mpr accepted)
    rw [concluded]
    constructor
    · rintro ⟨written, load, parsed, succeeded, _⟩
      exact Or.inr ⟨(writeDataToFile_eq_iff env _).mp written, measured.mp load, parsed, succeeded⟩
    · rintro (rejected | ⟨storesAll, given, parsed, succeeded⟩)
      · exact absurd accepted rejected
      · exact ⟨(writeDataToFile_eq_iff env _).mpr storesAll, measured.mpr given, parsed, succeeded,
          accepted⟩
  · have concluded : conclude env (runOf env (hashAfterLoad env) privateKey made signed) =
        .refused (runOf env (hashAfterLoad env) privateKey made signed) := if_pos accepted
    rw [concluded]
    exact iff_of_true trivial (Or.inl accepted)

theorem sm2Verify_of_dvd (message : Message) {d : Bytes 32} (signature : Signature)
    (divides : sm2N ∣ d.toNat) : sm2Verify message (sm2MakePubkey d).2 signature ≠ 0 := by
  have infinity : sm2Curve.mult d.toNat sm2G = .infinity := (mult_sm2G_eq_infinity_iff _).mpr divides
  have zeroKey : (sm2MakePubkey d).2 = ⟨Bytes.ofNat 32 0, Bytes.ofNat 32 0⟩ := by
    rw [sm2MakePubkey, infinity]
    rfl
  rw [zeroKey]
  intro accepted
  have onCurve := ((sm2Verify_eq_zero_iff _ _ _).mp accepted).1.onCurve
  rw [PublicKey.OnCurve, Bytes.toNat_ofNat (by decide)] at onCurve
  exact absurd onCurve (by decide)

theorem sound_iff {env : SignEnv} {keyText : List UInt8} {d : Bytes 32}
    (survives : ¬LoadKills env) (read : env.keyText = some keyText)
    (scanned : scanPrivKey env.stalePrivateKey keyText = d) :
    Sound env ↔ sm2N ∣ d.toNat ∨
      ((sm2SignWith (hashMessage (hashAfterLoad env)) d signNonce).1 ≠ 0 ∧
        sm2Verify (hashMessage (hashAfterLoad env)) (sm2MakePubkey d).2 env.staleSignature ≠ 0) ∨
      ((sm2SignWith (hashMessage (hashAfterLoad env)) d signNonce).1 = 0 ∧
        env.measuredLoad?.isSome = true ∧ env.AddressesFit ∧ env.StoresAll) := by
  simp only [Sound, survives, read, Option.some.injEq, exists_eq_left', scanned, false_or,
    reduceCtorEq]

theorem certifies_iff_sound {env : SignEnv} {keyText : List UInt8} {d : Bytes 32}
    {signed : Nat × Option Signature} (survives : ¬LoadKills env)
    (read : env.keyText = some keyText) (scanned : scanPrivKey env.stalePrivateKey keyText = d)
    (answer : sm2SignWith (hashMessage (hashAfterLoad env)) d signNonce = signed) :
    Certifies env (conclude env (runOf env (hashAfterLoad env) d (sm2MakePubkey d) signed)) ↔
      Sound env := by
  rw [certifies_conclude_iff, sound_iff survives read scanned, answer, sm2MakePubkey_status]
  by_cases divides : sm2N ∣ d.toNat
  · exact iff_of_true (Or.inl (sm2Verify_of_dvd _ _ divides)) (Or.inl divides)
  · rcases sm2SignWith_cases (hashMessage (hashAfterLoad env)) d signNonce with
      failedR | failedS | ⟨signature, written, guarantee⟩
    · rw [failedR] at answer
      rw [← answer]
      simp [divides, errGenerateR]
    · rw [failedS] at answer
      rw [← answer]
      simp [divides, errGenerateS]
    · rw [written] at answer
      rw [← answer]
      have accepted := guarantee.sm2Verify_eq_zero divides signNonce_range.1 signNonce_range.2
      simp [divides, accepted]
      rw [and_comm, and_assoc]

/-- In every run that returns, the tool keeps to its purpose exactly in a sound
environment. -/
theorem signMain_certifies_iff {fuel : Nat} {detached : Call → LibState → Option Detached}
    {env : SignEnv} {outcome : Outcome} (returned : signMain fuel detached env = some outcome) :
    Certifies env outcome ↔ Sound env := by
  rcases signMain_cases returned with
    ⟨killed, early⟩ | ⟨enclaveHash, keyText, loaded, read, concluded⟩
  · rw [killed]
    rw [loadSecureLinux_eq_none_iff] at early
    refine iff_of_true trivial ?_
    rcases early with kills | unread
    · exact Or.inl kills
    · exact Or.inr (Or.inl unread)
  · rcases (loadSecureLinux_eq_some_iff env enclaveHash).mp loaded with ⟨survives, hash⟩
    rw [concluded, ← hash]
    exact certifies_iff_sound survives read rfl rfl

/-! ## A missing image is certified -/

/-- What OpenSSL prints for the private key 1 behind its two header lines. -/
def oneKeyText : List UInt8 := labelledDump (fun _ => 4) 0 (Bytes.ofNat 32 1).toList

theorem scanPrivKey_oneKeyText (stale : Bytes 32) :
    scanPrivKey stale oneKeyText = Bytes.ofNat 32 1 := by
  have read := scanPrivKey_append (lists_labelledDump (fun _ => 4) 0 (Bytes.ofNat 32 1).toList)
    stale []
  rwa [List.append_nil] at read

def noMemory : AddressSpace where
  bytes := fun _ => 0
  mapped := fun _ => false
  topUnmapped := rfl

def missingImage : SignEnv where
  path :=
    { imageFile := "Image"
      imageLdaddr := "c0200000"
      dtbFile := "sec.dtb"
      dtbLdaddr := "c2000000"
      key := "SM2PrivateKey.pem"
      output := "css" }
  space := noMemory
  image := .openFails
  dtb := .openFails
  staleEnclaveFile := ⟨0, 0, 0⟩
  staleDtbFile := ⟨0, 0, 0⟩
  staleUserParam := ⟨0, 0, 0, 0, 0, 0, 0, 0⟩
  staleHashBuf := Vector.replicate 64 0
  unmapKills := fun _ => false
  staleCss :=
    { enclaveHash := Vector.replicate 32 0
      signatureR := Vector.replicate 32 0
      signatureS := Vector.replicate 32 0
      userPubKeyX := Vector.replicate 32 0
      userPubKeyY := Vector.replicate 32 0 }
  stalePrivateKey := Vector.replicate 32 0
  keyText := some oneKeyText
  stored := some 160

theorem messageDigest_zeroHash :
    messageDigest (hashMessage (Vector.replicate 32 0)) basePointKey =
      0x23BE9DCF98E3B51FC87120F60AEDA62826AF6410D772974C226B1F440D42168B := by
  rw [messageDigest, sm2ComputeZA_basePointKey]
  decide +kernel

theorem sm2SignWith_zeroHash : ∃ signature,
    sm2SignWith (hashMessage (Vector.replicate 32 0)) (Bytes.ofNat 32 1) signNonce =
      (0, some signature) ∧
    Signed (hashMessage (Vector.replicate 32 0)) (Bytes.ofNat 32 1) signNonce signature := by
  have success := sm2SignWith_oneKey messageDigest_zeroHash commitment_signNonce
    (by decide +kernel)
  rcases sm2SignWith_cases (hashMessage (Vector.replicate 32 0)) (Bytes.ofNat 32 1) signNonce with
    failedR | failedS | signed
  · rw [failedR] at success
    cases success
  · rw [failedS] at success
    cases success
  · exact signed

theorem loadSecureLinux_missingImage :
    loadSecureLinux missingImage = some (Vector.replicate 32 0) := by
  rw [loadSecureLinux_eq_some_iff]
  constructor
  · decide
  · decide

theorem missingImage_succeeds : ∃ run,
    signMain 1 (fun _ _ => none) missingImage = some (.succeed run (some (cssBytes run.css))) ∧
    ¬Certifies missingImage (.succeed run (some (cssBytes run.css))) := by
  rcases sm2SignWith_zeroHash with ⟨signature, answer, guarantee⟩
  have returned : signMain 1 (fun _ _ => none) missingImage =
      some (conclude missingImage
        (certified missingImage (Vector.replicate 32 0) oneKeyText)) :=
    signMain_of_loaded loadSecureLinux_missingImage rfl
  have scanned : scanPrivKey missingImage.stalePrivateKey oneKeyText = Bytes.ofNat 32 1 :=
    scanPrivKey_oneKeyText _
  have accepted := guarantee.sm2Verify_eq_zero (by decide) signNonce_range.1 signNonce_range.2
  rw [certified, scanned, answer] at returned
  generalize sm2MakePubkey (Bytes.ofNat 32 1) = made at returned accepted
  obtain ⟨run, made⟩ : ∃ run, run = runOf missingImage (Vector.replicate 32 0)
      (Bytes.ofNat 32 1) made (0, some signature) := ⟨_, rfl⟩
  rw [← made] at returned
  have verified : run.verifyStatus = 0 := by
    rw [made]
    exact accepted
  have stored : writeDataToFile missingImage run.css = some (cssBytes run.css) :=
    (writeDataToFile_eq_iff _ _).mpr ⟨160, rfl, Nat.le_refl _⟩
  rw [conclude, if_neg (not_not.mpr verified), stored] at returned
  refine ⟨run, returned, ?_⟩
  rintro ⟨_, ⟨load, _, measured, _⟩, _⟩
  cases measured

theorem signMain_certifies_iff_mappedRun : ∃ outcome,
    signMain 1 (fun _ _ => none) (mappedRun firstImage "c0200000" (Bytes.ofNat 32 1)) =
      some outcome ∧
    Certifies (mappedRun firstImage "c0200000" (Bytes.ofNat 32 1)) outcome := by
  rcases mappedRun_reaches firstImage "c0200000" (Bytes.ofNat 32 1) with ⟨outcome, _, returned, _⟩
  have scanned : scanPrivKey (mappedRun firstImage "c0200000" (Bytes.ofNat 32 1)).stalePrivateKey
      oneKeyText = Bytes.ofNat 32 1 := scanPrivKey_oneKeyText _
  have fit : (mappedRun firstImage "c0200000" (Bytes.ofNat 32 1)).AddressesFit :=
    ⟨⟨0xc0200000, by decide, writesHex_of_digits (by decide) (by decide +kernel) (by decide +kernel)⟩,
      ⟨0xc2000000, by decide, writesHex_of_digits (by decide) (by decide +kernel)
        (by decide +kernel)⟩⟩
  have survives : ¬LoadKills (mappedRun firstImage "c0200000" (Bytes.ofNat 32 1)) :=
    not_loadKills_of_mapped rfl fun _ => rfl
  have sound := (sound_iff survives rfl scanned).mpr
    (Or.inr (Or.inr ⟨firstRun_signs, rfl, fit, 160, rfl, Nat.le_refl _⟩))
  exact ⟨outcome, returned, (signMain_certifies_iff returned).mpr sound⟩

end Penglai.SignTool

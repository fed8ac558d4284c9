import Penglai.SignTool.KeyText
import Penglai.SignTool.Loading
import Penglai.SignTool.Run

namespace Penglai.SignTool

open Gm

/-! # The number behind every signature of the tool

It is the same in every run, so two css files made with one key give the key away. -/

theorem equation_of_shared_rand {message message' : Message} {d rand : Bytes 32}
    {signature signature' : Signature} (signed : Signed message d rand signature)
    (signed' : Signed message' d rand signature') :
    (signature.s.toNat * (1 + d.toNat) + signature.r.toNat * d.toNat : ZMod sm2N) =
      signature'.s.toNat * (1 + d.toNat) + signature'.r.toNat * d.toNat := by
  rw [signed.equation, signed'.equation]

theorem private_key_of_shared_rand {message message' : Message} {d rand : Bytes 32}
    {signature signature' : Signature} (signed : Signed message d rand signature)
    (signed' : Signed message' d rand signature') (different : signature.r ≠ signature'.r) :
    (d.toNat : ZMod sm2N) = (signature'.s.toNat - signature.s.toNat) /
      (signature.s.toNat + signature.r.toNat - (signature'.s.toNat + signature'.r.toNat)) := by
  have equation := equation_of_shared_rand signed signed'
  have solvable : (signature.s.toNat + signature.r.toNat -
      (signature'.s.toNat + signature'.r.toNat) : ZMod sm2N) ≠ 0 := by
    intro zero
    -- then the difference of the equations leaves `r = r'`
    have same : (signature.r.toNat : ZMod sm2N) = signature'.r.toNat := by
      linear_combination (1 + d.toNat : ZMod sm2N) * zero - equation
    rw [ZMod.natCast_eq_natCast_iff', Nat.mod_eq_of_lt signed.r_lt,
      Nat.mod_eq_of_lt signed'.r_lt] at same
    exact different (Bytes.toNat_injective same)
  rw [eq_div_iff solvable]
  linear_combination equation

/-- In every two runs that come to `SM2_Sign`, whatever their files, keys and
buffers, it draws the same number; where both report success with the same key, the
two css files satisfy the equation that makes the key computable. -/
theorem signNonce_shared {fuel fuel' : Nat}
    {detached detached' : Call → LibState → Option Detached} {env env' : SignEnv}
    {outcome outcome' : Outcome} {run run' : SignRun}
    (returned : signMain fuel detached env = some outcome)
    (returned' : signMain fuel' detached' env' = some outcome')
    (reached : outcome.run? = some run) (reached' : outcome'.run? = some run') :
    run.rand = some signNonce ∧ run'.rand = some signNonce ∧
    (run.privateKey = run'.privateKey → run.signStatus = 0 → run'.signStatus = 0 →
      (run.css.signatureS.toNat * (1 + run.privateKey.toNat) +
          run.css.signatureR.toNat * run.privateKey.toNat : ZMod sm2N) =
        run'.css.signatureS.toNat * (1 + run.privateKey.toNat) +
          run'.css.signatureR.toNat * run.privateKey.toNat ∧
      (run.css.signatureR ≠ run'.css.signatureR →
        (run.privateKey.toNat : ZMod sm2N) =
          (run'.css.signatureS.toNat - run.css.signatureS.toNat) /
            (run.css.signatureS.toNat + run.css.signatureR.toNat -
              (run'.css.signatureS.toNat + run'.css.signatureR.toNat)))) := by
  rcases runOf_of_run? returned reached with ⟨enclaveHash, privateKey, made, signed, answer, rfl⟩
  rcases runOf_of_run? returned' reached' with
    ⟨enclaveHash', privateKey', made', signed', answer', rfl⟩
  refine ⟨rfl, rfl, ?_⟩
  intro sameKey success success'
  have guarantee := signed_of_signStatus answer success
  have guarantee' := signed_of_signStatus answer' success'
  have shared : privateKey' = privateKey := sameKey.symm
  rw [shared] at guarantee'
  exact ⟨equation_of_shared_rand guarantee guarantee',
    private_key_of_shared_rand guarantee guarantee'⟩

theorem signMain_reaches {fuel : Nat} {detached : Call → LibState → Option Detached}
    {env : SignEnv} {keyText : List UInt8} {privateKey : Bytes 32} (survives : ¬LoadKills env)
    (read : env.keyText = some keyText)
    (scanned : scanPrivKey env.stalePrivateKey keyText = privateKey) :
    ∃ outcome run, signMain (fuel + 1) detached env = some outcome ∧ outcome.run? = some run ∧
      run.privateKey = privateKey ∧ run.rand = some signNonce ∧
      run.signStatus =
        (sm2SignWith (hashMessage (hashAfterLoad env)) privateKey signNonce).1 := by
  have loaded := (loadSecureLinux_eq_some_iff env _).mpr ⟨survives, rfl⟩
  subst scanned
  refine ⟨_, _, signMain_of_loaded loaded read, run?_conclude _ _, rfl, rfl, ?_⟩
  exact signStatus_runOf _ _ _ _ _

/-! ## Two unrelated runs -/

def threePages : AddressSpace where
  bytes := fun address => (address >>> 12).toUInt8
  mapped := fun address => address = 0x1000 || address = 0x2000 || address = 0x3000
  topUnmapped := by decide

def firstImage : MappedFile threePages where
  contents := [1]
  ptr := 0x1000
  nonempty := by decide
  fits := by decide
  nonnull := by decide
  readable := by decide
  holds := by decide

def secondImage : MappedFile threePages where
  contents := [2]
  ptr := 0x2000
  nonempty := by decide
  fits := by decide
  nonnull := by decide
  readable := by decide
  holds := by decide

def deviceTree : MappedFile threePages where
  contents := [3]
  ptr := 0x3000
  nonempty := by decide
  fits := by decide
  nonnull := by decide
  readable := by decide
  holds := by decide

def mappedRun (image : MappedFile threePages) (address : String) (privateKey : Bytes 32) :
    SignEnv where
  path :=
    { imageFile := "Image"
      imageLdaddr := address
      dtbFile := "sec.dtb"
      dtbLdaddr := "c2000000"
      key := "SM2PrivateKey.pem"
      output := "css" }
  space := threePages
  image := .mapped 3 image
  dtb := .mapped 4 deviceTree
  staleEnclaveFile := ⟨0, 0, 0⟩
  staleDtbFile := ⟨0, 0, 0⟩
  staleUserParam := ⟨0, 0, 0, 0, 0, 0, 0, 0⟩
  staleHashBuf := Vector.replicate 64 0
  unmapKills := fun _ => false
  staleCss :=
    { enclaveHash := Vector.replicate 32 0
      signatureR := Vector.replicate 32 0
      signatureS := Vector.replicate 32 0
      userPubKeyX := Vector.replicate 32 0
      userPubKeyY := Vector.replicate 32 0 }
  stalePrivateKey := Vector.replicate 32 0
  keyText := some (labelledDump (fun _ => 4) 0 privateKey.toList)
  stored := some 160

theorem mappedRun_reaches (image : MappedFile threePages) (address : String)
    (privateKey : Bytes 32) : ∃ outcome run,
      signMain 1 (fun _ _ => none) (mappedRun image address privateKey) = some outcome ∧
      outcome.run? = some run ∧ run.privateKey = privateKey ∧ run.rand = some signNonce ∧
      run.signStatus = (sm2SignWith
        (hashMessage (hashAfterLoad (mappedRun image address privateKey))) privateKey signNonce).1 := by
  have survives : ¬LoadKills (mappedRun image address privateKey) :=
    not_loadKills_of_mapped rfl fun _ => rfl
  have read := scanPrivKey_append (lists_labelledDump (fun _ => 4) 0 privateKey.toList)
    (Vector.replicate 32 0) []
  rw [List.append_nil] at read
  have text : (mappedRun image address privateKey).keyText =
      some (labelledDump (fun _ => 4) 0 privateKey.toList) := rfl
  have scanned : scanPrivKey (mappedRun image address privateKey).stalePrivateKey
      (labelledDump (fun _ => 4) 0 privateKey.toList) = privateKey := read
  exact @signMain_reaches 0 (fun _ _ => none) _ _ _ survives text scanned

theorem two_runs_one_nonce : ∃ outcome outcome' run run',
    signMain 1 (fun _ _ => none) (mappedRun firstImage "c0200000" (Bytes.ofNat 32 1)) =
      some outcome ∧
    signMain 1 (fun _ _ => none) (mappedRun secondImage "80200000" (Bytes.ofNat 32 2)) =
      some outcome' ∧
    outcome.run? = some run ∧ outcome'.run? = some run' ∧
    run.privateKey ≠ run'.privateKey ∧ run.rand = run'.rand := by
  rcases mappedRun_reaches firstImage "c0200000" (Bytes.ofNat 32 1) with
    ⟨outcome, run, returned, reached, key, rand, _⟩
  rcases mappedRun_reaches secondImage "80200000" (Bytes.ofNat 32 2) with
    ⟨outcome', run', returned', reached', key', rand', _⟩
  refine ⟨outcome, outcome', run, run', returned, returned', reached, reached', ?_, ?_⟩
  · rw [key, key']
    decide +kernel
  · rw [rand, rand']

theorem commitment_signNonce : commitment signNonce =
    0x46F252174509D650F1E2877690FB072D87B4AF3BC24F31089440834190630D85 := by
  decide +kernel

theorem firstRun_signs : (sm2SignWith
    (hashMessage (hashAfterLoad (mappedRun firstImage "c0200000" (Bytes.ofNat 32 1))))
    (Bytes.ofNat 32 1) signNonce).1 = 0 := by
  have digest : messageDigest (hashMessage (hashAfterLoad
      (mappedRun firstImage "c0200000" (Bytes.ofNat 32 1)))) basePointKey =
      0x3A67915B7448D4D08EB8E83268EC2443E581E7B60129048FB0AA53100552F1B0 := by
    rw [hashAfterLoad_of_mapped rfl, messageDigest, sm2ComputeZA_basePointKey]
    decide +kernel
  exact sm2SignWith_oneKey digest commitment_signNonce (by decide +kernel)

theorem secondRun_signs : (sm2SignWith
    (hashMessage (hashAfterLoad (mappedRun secondImage "80200000" (Bytes.ofNat 32 1))))
    (Bytes.ofNat 32 1) signNonce).1 = 0 := by
  have digest : messageDigest (hashMessage (hashAfterLoad
      (mappedRun secondImage "80200000" (Bytes.ofNat 32 1)))) basePointKey =
      0x2BB1A22559FD7AF9884EAA1728462D977302632547A9C6F0AEF056AA0BC052FB := by
    rw [hashAfterLoad_of_mapped rfl, messageDigest, sm2ComputeZA_basePointKey]
    decide +kernel
  exact sm2SignWith_oneKey digest commitment_signNonce (by decide +kernel)

theorem signNonce_shared_mapped : ∃ outcome outcome' run run',
    signMain 1 (fun _ _ => none) (mappedRun firstImage "c0200000" (Bytes.ofNat 32 1)) =
      some outcome ∧
    signMain 1 (fun _ _ => none) (mappedRun secondImage "80200000" (Bytes.ofNat 32 1)) =
      some outcome' ∧
    outcome.run? = some run ∧ outcome'.run? = some run' ∧
    run.rand = some signNonce ∧ run'.rand = some signNonce ∧
    run.signStatus = 0 ∧ run'.signStatus = 0 ∧
    (run.css.signatureS.toNat * (1 + run.privateKey.toNat) +
        run.css.signatureR.toNat * run.privateKey.toNat : ZMod sm2N) =
      run'.css.signatureS.toNat * (1 + run.privateKey.toNat) +
        run'.css.signatureR.toNat * run.privateKey.toNat := by
  rcases mappedRun_reaches firstImage "c0200000" (Bytes.ofNat 32 1) with
    ⟨outcome, run, returned, reached, key, _, status⟩
  rcases mappedRun_reaches secondImage "80200000" (Bytes.ofNat 32 1) with
    ⟨outcome', run', returned', reached', key', _, status'⟩
  have success := status.trans firstRun_signs
  have success' := status'.trans secondRun_signs
  have shared := signNonce_shared returned returned' reached reached'
  exact ⟨outcome, outcome', run, run', returned, returned', reached, reached', shared.1,
    shared.2.1, success, success', (shared.2.2 (key.trans key'.symm) success success').1⟩

end Penglai.SignTool

import Penglai.Gm.Sm2Verification
import Penglai.Gm.Startup
import Penglai.SignTool.Main

namespace Penglai.SignTool

open Gm

/-! # A run of the tool, step by step

A run sets no seed before `SM2_make_pubkey` initialises the library, so `SM2_Sign`
draws the same number in every process, and behind the two files and the key text
nothing is left open. -/

/-! ## The library calls of a run -/

def signNonce : Bytes 32 := Bytes.ofNat 32 unseededNonce

theorem toNat_signNonce : signNonce.toNat = unseededNonce := Bytes.toNat_ofNat (by decide)

theorem signNonce_range : 1 ≤ signNonce.toNat ∧ signNonce.toNat ≤ sm2N - 1 := by
  rw [toNat_signNonce]
  decide

section Calls

variable {fuel : Nat} {detached : Call → LibState → Option Detached}

def signRng : Rng := startupRng (bigrand (16 ^ 8) (irand 0 mirsysRng))

theorem start_makePubkey (priKey : Bytes 32) :
    LibState.start.call (fuel + 1) detached (.makePubkey priKey) =
      some (.pubkey (sm2MakePubkey priKey).1 (sm2MakePubkey priKey).2,
        LibState.ready signRng) := by
  have init : LibState.start.sm2Init (fuel + 1) = some (0, LibState.ready signRng) :=
    LibState.sm2Init_start (bigdig_of_accepted unseeded_draw)
  rw [LibState.call_of_ready rfl init, LibState.attachedCall]

theorem bigrand_signRng : (bigrand sm2N signRng).1 = unseededNonce := by
  rw [signRng]
  exact unseededNonce_drawn

theorem genRandom_signRng :
    genRandom (fuel + 1) signRng = some (signNonce, (bigrand sm2N signRng).2) := by
  have inside : ((bigrand sm2N signRng).1 < 1 || (bigrand sm2N signRng).1 > sm2N - 1) = false := by
    rw [bigrand_signRng]
    decide
  rw [genRandom_of_draw (fuel + 1) (bigrandUntil_of_accepted inside), bigrand_signRng, signNonce]

theorem ready_sign (message : Message) (d : Bytes 32) :
    (LibState.ready signRng).call (fuel + 1) detached (.sign message d) =
      some (.signed signNonce (sm2SignWith message d signNonce).1
        (sm2SignWith message d signNonce).2, LibState.ready (bigrand sm2N signRng).2) := by
  rw [LibState.ready_call rfl, LibState.attachedCall_sign_of_draw message d genRandom_signRng]

theorem ready_verify (rng : Rng) (message : Message) (key : PublicKey) (signature : Signature) :
    (LibState.ready rng).call fuel detached (.verify message key signature) =
      some (.verdict (sm2Verify message key signature), LibState.ready rng) := by
  rw [LibState.ready_call rfl, LibState.attachedCall]

end Calls

/-! ## The whole run -/

def runOf (env : SignEnv) (enclaveHash privateKey : Bytes 32) (made : Nat × PublicKey)
    (signed : Nat × Option Signature) : SignRun :=
  let signature := signed.2.getD ⟨env.staleCss.signatureR, env.staleCss.signatureS⟩
  { css := ⟨enclaveHash, signature.r, signature.s, made.2.px, made.2.py⟩
    privateKey
    parseStatus := made.1
    signStatus := signed.1
    rand := some signNonce
    verifyStatus := sm2Verify (hashMessage enclaveHash) made.2 signature }

theorem signStatus_runOf (env : SignEnv) (enclaveHash privateKey : Bytes 32)
    (made : Nat × PublicKey) (signed : Nat × Option Signature) :
    (runOf env enclaveHash privateKey made signed).signStatus = signed.1 := rfl

def certified (env : SignEnv) (enclaveHash : Bytes 32) (keyText : List UInt8) : SignRun :=
  runOf env enclaveHash (scanPrivKey env.stalePrivateKey keyText)
    (sm2MakePubkey (scanPrivKey env.stalePrivateKey keyText))
    (sm2SignWith (hashMessage enclaveHash) (scanPrivKey env.stalePrivateKey keyText) signNonce)

section Run

variable {fuel : Nat} {detached : Call → LibState → Option Detached}

theorem parsePrivKeyFile_start (privKey : Bytes 32) (pubkey : PublicKey) (line : List UInt8) :
    parsePrivKeyFile (fuel + 1) detached LibState.start privKey pubkey line =
      some
        ({ status := (sm2MakePubkey (scanPrivKey privKey line)).1
           privKey := scanPrivKey privKey line
           pubkey := (sm2MakePubkey (scanPrivKey privKey line)).2 },
          LibState.ready signRng) := by
  simp only [parsePrivKeyFile, start_makePubkey, Option.bind_eq_bind, Option.bind_some, status,
    keyAfter]

theorem parsePrivKeyFile_zero (privKey : Bytes 32) (pubkey : PublicKey) (line : List UInt8) :
    parsePrivKeyFile 0 detached LibState.start privKey pubkey line = none := by
  have init : LibState.start.sm2Init 0 = none := rfl
  rw [parsePrivKeyFile, LibState.call, init]
  rfl

theorem certify_of_calls {env : SignEnv} {enclaveHash : Bytes 32} {keyText : List UInt8}
    {parsed : ParsedKey} {signStatus verifyStatus : Nat} {rand : Bytes 32}
    {signature : Option Signature} {parsedLib signedLib verifiedLib : LibState}
    (parse : parsePrivKeyFile fuel detached LibState.start env.stalePrivateKey
      ⟨env.staleCss.userPubKeyX, env.staleCss.userPubKeyY⟩ keyText = some (parsed, parsedLib))
    (sign : parsedLib.call fuel detached (.sign (hashMessage enclaveHash) parsed.privKey) =
      some (.signed rand signStatus signature, signedLib))
    (verify : signedLib.call fuel detached (.verify (hashMessage enclaveHash) parsed.pubkey
      (signature.getD ⟨env.staleCss.signatureR, env.staleCss.signatureS⟩)) =
        some (.verdict verifyStatus, verifiedLib)) :
    certify fuel detached env enclaveHash keyText =
      some
        { css :=
            { enclaveHash
              signatureR :=
                (signature.getD ⟨env.staleCss.signatureR, env.staleCss.signatureS⟩).r
              signatureS :=
                (signature.getD ⟨env.staleCss.signatureR, env.staleCss.signatureS⟩).s
              userPubKeyX := parsed.pubkey.px
              userPubKeyY := parsed.pubkey.py }
          privateKey := parsed.privKey
          parseStatus := parsed.status
          signStatus
          rand := some rand
          verifyStatus } := by
  cases signature with
  | none =>
      simp only [Option.getD_none] at verify
      simp only [certify, parse, Option.bind_eq_bind, Option.bind_some, sign, signatureAfter,
        verify, status, randOf, Option.getD_none]
  | some signature =>
      simp only [Option.getD_some] at verify
      simp only [certify, parse, Option.bind_eq_bind, Option.bind_some, sign, signatureAfter,
        verify, status, randOf, Option.getD_some]

theorem certify_of_parse {env : SignEnv} {enclaveHash privateKey : Bytes 32}
    {keyText : List UInt8} {made : Nat × PublicKey}
    (parse : parsePrivKeyFile (fuel + 1) detached LibState.start env.stalePrivateKey
      ⟨env.staleCss.userPubKeyX, env.staleCss.userPubKeyY⟩ keyText =
        some (⟨made.1, privateKey, made.2⟩, LibState.ready signRng)) :
    certify (fuel + 1) detached env enclaveHash keyText =
      some (runOf env enclaveHash privateKey made
        (sm2SignWith (hashMessage enclaveHash) privateKey signNonce)) :=
  certify_of_calls parse (ready_sign (hashMessage enclaveHash) privateKey)
    (ready_verify _ (hashMessage enclaveHash) made.2 _)

theorem certify_eq (env : SignEnv) (enclaveHash : Bytes 32) (keyText : List UInt8) :
    certify (fuel + 1) detached env enclaveHash keyText =
      some (certified env enclaveHash keyText) := by
  rw [certified]
  exact certify_of_parse (parsePrivKeyFile_start _ _ _)

theorem certify_zero (env : SignEnv) (enclaveHash : Bytes 32) (keyText : List UInt8) :
    certify 0 detached env enclaveHash keyText = none := by
  rw [certify, parsePrivKeyFile_zero]
  rfl

/-- A run that comes as far as the self-verification returns, with any bound. -/
theorem signMain_of_loaded {env : SignEnv} {enclaveHash : Bytes 32} {keyText : List UInt8}
    (loaded : loadSecureLinux env = some enclaveHash) (read : env.keyText = some keyText) :
    signMain (fuel + 1) detached env =
      some (conclude env (certified env enclaveHash keyText)) := by
  simp only [signMain, loaded, read, certify_eq, Option.map_some]

theorem signMain_cases {env : SignEnv} {outcome : Outcome}
    (returned : signMain fuel detached env = some outcome) :
    (outcome = .killed ∧ (loadSecureLinux env = none ∨ env.keyText = none)) ∨
      ∃ enclaveHash keyText, loadSecureLinux env = some enclaveHash ∧
        env.keyText = some keyText ∧
        outcome = conclude env (certified env enclaveHash keyText) := by
  rw [signMain] at returned
  cases loaded : loadSecureLinux env with
  | none =>
      rw [loaded, Option.some.injEq] at returned
      exact Or.inl ⟨returned.symm, Or.inl rfl⟩
  | some enclaveHash =>
      cases read : env.keyText with
      | none =>
          rw [loaded, read, Option.some.injEq] at returned
          exact Or.inl ⟨returned.symm, Or.inr rfl⟩
      | some keyText =>
          simp only [loaded, read] at returned
          cases fuel with
          | zero => simp [certify_zero] at returned
          | succ fuel =>
              rw [certify_eq, Option.map_some, Option.some.injEq] at returned
              exact Or.inr ⟨enclaveHash, keyText, rfl, rfl, returned.symm⟩

theorem runOf_of_run? {env : SignEnv} {outcome : Outcome} {run : SignRun}
    (returned : signMain fuel detached env = some outcome) (reached : outcome.run? = some run) :
    ∃ enclaveHash privateKey made signed,
      sm2SignWith (hashMessage enclaveHash) privateKey signNonce = signed ∧
      run = runOf env enclaveHash privateKey made signed := by
  rcases signMain_cases returned with ⟨killed, _⟩ | ⟨enclaveHash, keyText, _, _, concluded⟩
  · rw [killed] at reached
    cases reached
  · rw [concluded, run?_conclude, Option.some.injEq] at reached
    exact ⟨enclaveHash, _, _, _, rfl, reached.symm⟩

theorem signed_of_signStatus {env : SignEnv} {enclaveHash privateKey : Bytes 32}
    {made : Nat × PublicKey} {signed : Nat × Option Signature}
    (answer : sm2SignWith (hashMessage enclaveHash) privateKey signNonce = signed)
    (success : (runOf env enclaveHash privateKey made signed).signStatus = 0) :
    Signed (hashMessage enclaveHash) privateKey signNonce
      ⟨(runOf env enclaveHash privateKey made signed).css.signatureR,
        (runOf env enclaveHash privateKey made signed).css.signatureS⟩ := by
  have zero : signed.1 = 0 := success
  rcases sm2SignWith_cases (hashMessage enclaveHash) privateKey signNonce with
    failedR | failedS | ⟨signature, written, guarantee⟩
  · rw [← answer, failedR] at zero
    exact absurd zero (by decide)
  · rw [← answer, failedS] at zero
    exact absurd zero (by decide)
  · rw [written] at answer
    rw [← answer]
    exact guarantee

end Run

end Penglai.SignTool

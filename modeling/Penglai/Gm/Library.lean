import Penglai.Foundation.Run
import Penglai.Gm.Random
import Penglai.Gm.Sm2

namespace Penglai.Gm

/-! # The state of the library

What one process keeps between calls: the MIRACL instance with its generator and
curve context, the flag of `Random.c` and the flag inside `SM2_Init`. Rejection
loops get the same bound `fuel` throughout; a call that uses it up, or that never
returns, is `none`. -/

structure CurveContext where
  modulus : Nat
  a : Nat
  b : Nat
  deriving DecidableEq

def clearedContext : CurveContext := ⟨0, 0, 0⟩

def sm2Context : CurveContext := ⟨sm2P, sm2A, sm2B⟩

structure LibState where
  rng : Rng
  context : CurveContext
  /-- The error number of the instance is set; every operation then returns at once. -/
  ernum : Bool
  g : EPoint
  setSeed : Bool
  successExcuted : Bool
  deriving DecidableEq

namespace LibState

def start : LibState where
  rng := zeroRng
  context := clearedContext
  ernum := false
  g := .infinity
  setSeed := false
  successExcuted := false

def mirsys (state : LibState) : LibState :=
  { state with rng := mirsysRng, context := clearedContext, ernum := false }

def setRandSeed (seed : UInt32) (state : LibState) : LibState :=
  { state.mirsys with rng := irand seed state.mirsys.rng, setSeed := true }

@[simp] theorem setRandSeed_rng (seed : UInt32) (state : LibState) :
    (state.setRandSeed seed).rng = irand seed mirsysRng := by
  rw [setRandSeed, mirsys]

@[simp] theorem setRandSeed_setSeed (seed : UInt32) (state : LibState) :
    (state.setRandSeed seed).setSeed = true := by
  rw [setRandSeed]

@[simp] theorem setRandSeed_successExcuted (seed : UInt32) (state : LibState) :
    (state.setRandSeed seed).successExcuted = state.successExcuted := by
  rw [setRandSeed, mirsys]

def ensureSeed (state : LibState) : LibState :=
  if state.setSeed then state else state.setRandSeed 0

@[simp] theorem ensureSeed_successExcuted (state : LibState) :
    state.ensureSeed.successExcuted = state.successExcuted := by
  rw [ensureSeed]
  split
  · rfl
  · exact setRandSeed_successExcuted 0 state

theorem ensureSeed_of_setSeed {state : LibState} (setSeed : state.setSeed = true) :
    state.ensureSeed = state := by
  rw [ensureSeed, if_pos setSeed]

def readBlock (fuel size blocks i : Nat) : List UInt8 × Rng → Option (List UInt8 × Rng)
  | (rand, rng) => do
      let fillSize := if i = blocks - 1 then size - (blocks - 1) * 32 else 32
      let (x, rng) ← bigdig fuel (2 * fillSize) 16 rng
      some (rand ++ beBytes fillSize x, rng)

def readRand (fuel size : Nat) (state : LibState) : Option (List UInt8 × LibState) :=
  let state := state.ensureSeed
  if state.ernum then some ([], state)
  else do
    let blocks := (size + 32 - 1) / 32
    let (rand, rng) ← forRangeM 0 blocks (readBlock fuel size blocks) ([], state.rng)
    some (rand, { state with rng })

/-- `MIRACL_Init`; the four bytes land in an `unsigned int` on a little-endian machine. -/
def miraclInit (fuel : Nat) (state : LibState) : Option LibState := do
  let (bytes, state) ← state.mirsys.readRand fuel 4
  let seed := UInt32.ofNat (beNat bytes.reverse)
  some { state with rng := irand seed state.rng }

def installCurve (state : LibState) : Nat × LibState :=
  let state := { state with context := sm2Context }
  match epointSet sm2Gx sm2Gy with
  | none => (errECurveInit, state)
  | some g =>
      let state := { state with g }
      if sm2Curve.mult sm2N g ≠ .infinity then (errOrder, state)
      else (0, { state with successExcuted := true })

theorem installCurve_eq (state : LibState) :
    state.installCurve =
      (0, { state with context := sm2Context, g := sm2G, successExcuted := true }) := by
  have base : epointSet sm2Gx sm2Gy = some sm2G := by decide +kernel
  have order : ¬sm2Curve.mult sm2N sm2G ≠ .infinity := not_not.mpr mult_sm2N_sm2G
  simp only [installCurve, base, if_neg order]

def sm2Init (fuel : Nat) (state : LibState) : Option (Nat × LibState) :=
  if state.successExcuted then some (0, state)
  else do
    let state ← state.miraclInit fuel
    some state.installCurve

/-- The context in which the operations of `SM2_sv.c` compute what they should. -/
def Attached (state : LibState) : Prop :=
  state.context = sm2Context ∧ state.g = sm2G ∧ state.ernum = false

instance (state : LibState) : Decidable state.Attached := inferInstanceAs (Decidable (_ ∧ _))

end LibState

/-! ## Calls -/

inductive Call where
  | setRandSeed (seed : UInt32)
  | readRand (size : Nat)
  | makePubkey (priKey : Bytes 32)
  | keyGeneration
  | sign (message : Message) (d : Bytes 32)
  | verify (message : Message) (key : PublicKey) (signature : Signature)

def Call.isSm2 : Call → Bool
  | .setRandSeed _ => false
  | .readRand _ => false
  | _ => true

/-- What a call returns and writes. The number drawn by `SM2_Sign` is listed
although the code keeps it to itself. -/
inductive Response where
  | done
  | bytes (rand : List UInt8)
  | initFailed (status : Nat)
  | pubkey (status : Nat) (key : PublicKey)
  | keyPair (status : Nat) (priKey : Bytes 32) (key : PublicKey)
  | signed (rand : Bytes 32) (status : Nat) (signature : Option Signature)
  | verdict (status : Nat)

/-- What an operation does on a curve context that is not in place is left open:
its answer, the number of draws it makes and whether it leaves an error number.
It may also not return. -/
structure Detached where
  response : Response
  draws : Nat
  ernum : Bool

section Calls

variable (fuel : Nat) (detached : Call → LibState → Option Detached)

/-- The draw of `SM2_make_prikey`: from `[1, n-2]`. -/
def drawPrikey (rng : Rng) : Option (Bytes 32 × Rng) := do
  let (x, rng) ← bigrandUntil sm2N (fun x => x < 1 || x > sm2N - 2) fuel rng
  some (Bytes.ofNat 32 x, rng)

/-- The draw of `SM2_gen_random`: from `[1, n-1]`. -/
def genRandom (rng : Rng) : Option (Bytes 32 × Rng) := do
  let (x, rng) ← bigrandUntil sm2N (fun x => x < 1 || x > sm2N - 1) fuel rng
  some (Bytes.ofNat 32 x, rng)

theorem drawPrikey_of_draw {rng : Rng} {drawn : Nat × Rng}
    (draw : bigrandUntil sm2N (fun x => x < 1 || x > sm2N - 2) fuel rng = some drawn) :
    drawPrikey fuel rng = some (Bytes.ofNat 32 drawn.1, drawn.2) := by
  rw [drawPrikey, draw]
  rfl

theorem genRandom_of_draw {rng : Rng} {drawn : Nat × Rng}
    (draw : bigrandUntil sm2N (fun x => x < 1 || x > sm2N - 1) fuel rng = some drawn) :
    genRandom fuel rng = some (Bytes.ofNat 32 drawn.1, drawn.2) := by
  rw [genRandom, draw]
  rfl

namespace LibState

/-- What the operations do behind `SM2_Init` on the curve context in place. -/
def attachedCall (state : LibState) : Call → Option (Response × LibState)
  | .setRandSeed seed => some (.done, state.setRandSeed seed)
  | .readRand size => do
      let (rand, state) ← state.readRand fuel size
      some (.bytes rand, state)
  | .makePubkey priKey =>
      let made := sm2MakePubkey priKey
      some (.pubkey made.1 made.2, state)
  | .keyGeneration => do
      let (priKey, rng) ← drawPrikey fuel state.rng
      let made := sm2MakePubkey priKey
      some (.keyPair made.1 priKey made.2, { state with rng })
  | .sign message d => do
      let (rand, rng) ← genRandom fuel state.rng
      let outcome := sm2SignWith message d rand
      some (.signed rand outcome.1 outcome.2, { state with rng })
  | .verify message key signature => some (.verdict (sm2Verify message key signature), state)

theorem attachedCall_keyGeneration (state : LibState) :
    state.attachedCall fuel .keyGeneration =
      (drawPrikey fuel state.rng).map fun drawn =>
        (.keyPair (sm2MakePubkey drawn.1).1 drawn.1 (sm2MakePubkey drawn.1).2,
          { state with rng := drawn.2 }) := by
  rw [attachedCall]
  cases drawPrikey fuel state.rng with
  | none => rfl
  | some drawn => rfl

theorem attachedCall_sign (state : LibState) (message : Message) (d : Bytes 32) :
    state.attachedCall fuel (.sign message d) =
      (genRandom fuel state.rng).map fun drawn =>
        (.signed drawn.1 (sm2SignWith message d drawn.1).1 (sm2SignWith message d drawn.1).2,
          { state with rng := drawn.2 }) := by
  rw [attachedCall]
  cases genRandom fuel state.rng with
  | none => rfl
  | some drawn => rfl

theorem attachedCall_readRand (state : LibState) (size : Nat) :
    state.attachedCall fuel (.readRand size) =
      (state.readRand fuel size).map fun written => (.bytes written.1, written.2) := by
  rw [attachedCall]
  cases state.readRand fuel size with
  | none => rfl
  | some written => rfl

def call (state : LibState) (request : Call) : Option (Response × LibState) :=
  if request.isSm2 then do
    let (i, state) ← state.sm2Init fuel
    if i ≠ 0 then some (.initFailed i, state)
    else if state.Attached then state.attachedCall fuel request
    else do
      let outcome ← detached request state
      some (outcome.response,
        { state with rng := brandNext^[outcome.draws] state.rng, ernum := outcome.ernum })
  else state.attachedCall fuel request

theorem call_setRandSeed (state : LibState) (seed : UInt32) :
    state.call fuel detached (.setRandSeed seed) = some (.done, state.setRandSeed seed) := by
  rw [call, if_neg (by simp [Call.isSm2]), attachedCall]

theorem call_readRand (state : LibState) (size : Nat) :
    state.call fuel detached (.readRand size) =
      (state.readRand fuel size).map fun written => (.bytes written.1, written.2) := by
  rw [call, if_neg (by simp [Call.isSm2]), attachedCall_readRand]

def run : LibState → List Call → Option (List Response × LibState) :=
  runInputs (LibState.call fuel detached)

end LibState

end Calls

end Penglai.Gm

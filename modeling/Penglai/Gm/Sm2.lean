import Penglai.Gm.Sm2Curve
import Penglai.Gm.Sm3Absorb
import Penglai.Gm.Xgcd

namespace Penglai.Gm

/-! # SM2 signatures

`SM2_sv.c` behind `SM2_Init`, on the initialised curve. Big numbers are naturals,
integers where a difference may be negative; the random number of `SM2_Sign` is
an argument. -/

structure Message where
  bytes : List UInt8
  short : bytes.length ≤ 1024

structure PublicKey where
  px : Bytes 32
  py : Bytes 32
  deriving DecidableEq

structure Signature where
  r : Bytes 32
  s : Bytes 32
  deriving DecidableEq

/-! ## Return values -/

def errECurveInit : Nat := 1
def errInfinityPoint : Nat := 2
def errNotValidPoint : Nat := 3
def errOrder : Nat := 4
def errNotValidElement : Nat := 5
def errGenerateR : Nat := 6
def errGenerateS : Nat := 7
def errOutrangeR : Nat := 8
def errOutrangeS : Nat := 9
def errGenerateT : Nat := 0xA
def errPubkeyInit : Nat := 0xB
def errDataMemcmp : Nat := 0xC

/-! ## Points -/

/-- `epoint_set(x, y, 0, p)`: coordinates are taken modulo `p`. -/
def epointSet (x y : Nat) : Option EPoint :=
  if sm2Curve.OnCurve (x % sm2P) (y % sm2P) then some (.affine (x % sm2P) (y % sm2P)) else none

/-- `epoint_get`: the point at infinity yields zeros. -/
def epointGet : EPoint → Nat × Nat
  | .infinity => (0, 0)
  | .affine x y => (x, y)

def testPoint (point : EPoint) : Nat :=
  let (x, y) := epointGet point
  let x3 := x ^ 3 % sm2P
  let x := sm2A * x
  let x := x % sm2P
  let x := x3 + x
  let x := x + sm2B
  let x := x % sm2P
  let y := y ^ 2 % sm2P
  if x ≠ y then errNotValidPoint else 0

def testPubKey (pubKey : EPoint) : Nat :=
  if pubKey = .infinity then errInfinityPoint
  else
    let (x, y) := epointGet pubKey
    if ¬x < sm2P ∨ ¬y < sm2P then errNotValidElement
    else if testPoint pubKey ≠ 0 then errNotValidPoint
    else if sm2Curve.mult sm2N pubKey ≠ .infinity then errOrder
    else 0

def testRange (x : Nat) : Bool := x < 1 || x > sm2N - 1

/-- `SM2_make_pubkey` behind `SM2_Init`; the coordinates are written before they
are tested. -/
def sm2MakePubkey (priKey : Bytes 32) : Nat × PublicKey :=
  let pa := sm2Curve.mult priKey.toNat sm2G
  let (x, y) := epointGet pa
  (testPubKey pa, { px := Bytes.ofNat 32 x, py := Bytes.ofNat 32 y })

/-! ## Signing -/

/-- `SM2_compute_ZA`: the identity is the string `1234567812345678`, of 128 bits. -/
def sm2ComputeZA (key : PublicKey) : Bytes 32 :=
  sm3Hash ([0x00, 0x80] ++
    [0x31, 0x32, 0x33, 0x34, 0x35, 0x36, 0x37, 0x38, 0x31, 0x32, 0x33, 0x34, 0x35, 0x36, 0x37,
      0x38] ++
    beBytes 32 sm2A ++ beBytes 32 sm2B ++ beBytes 32 sm2Gx ++ beBytes 32 sm2Gy ++
    key.px.toList ++ key.py.toList)

def messageDigest (message : Message) (key : PublicKey) : Nat :=
  (sm3Hash ((sm2ComputeZA key).toList ++ message.bytes)).toNat

/-- `SM2_Sign` behind `SM2_Init`, for the number drawn in step 3. The status of
`SM2_make_pubkey` is not looked at; `R` and `S` are written on success only. -/
def sm2SignWith (message : Message) (d rand : Bytes 32) : Nat × Option Signature :=
  let dA := d.toNat
  let (_, key) := sm2MakePubkey d
  let e := messageDigest message key
  let k := rand.toNat
  let (kgX, _) := epointGet (sm2Curve.mult k sm2G)
  let r := (e + kgX) % sm2N
  let rk := r + k
  if r = 0 ∨ rk = sm2N then (errGenerateR, none)
  else
    let z1 := xgcd (dA + 1) sm2N
    let z2 : Int := (r * dA % sm2N : Nat)
    let z2 := (k : Int) - z2
    let z2 := z2 + sm2N
    let s := (z1 * z2).tmod sm2N
    if s = 0 then (errGenerateS, none)
    else (0, some { r := Bytes.ofNat 32 r, s := Bytes.ofNat 32 s.toNat })

/-! ## Verification -/

def sm2Verify (message : Message) (key : PublicKey) (signature : Signature) : Nat :=
  let r := signature.r.toNat
  let s := signature.s.toNat
  match epointSet key.px.toNat key.py.toNat with
  | none => errPubkeyInit
  | some pa =>
      if testRange r then errOutrangeR
      else if testRange s then errOutrangeS
      else
        let e := messageDigest message key
        let t := (r + s) % sm2N
        if t = 0 then errGenerateT
        else
          let sG := sm2Curve.mult s sm2G
          let tPA := sm2Curve.mult t pa
          let (x1, _) := epointGet (sm2Curve.add sG tPA)
          if (e + x1) % sm2N = r then 0 else errDataMemcmp

end Penglai.Gm

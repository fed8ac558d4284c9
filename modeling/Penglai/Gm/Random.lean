import Penglai.Foundation.Bytes
import Penglai.Foundation.Loop

namespace Penglai.Gm

/-! # MIRACL's generator

The lagged subtract-with-borrow generator of `mrcore.c` and the big-number draws
of `mrrand.c`. Rejection loops that may run forever take a bound on the number of
rounds and answer `none` when it is used up. -/

structure Rng where
  ira : Vector UInt32 37
  rndptr : Nat
  borrow : UInt32
  deriving DecidableEq

def zeroRng : Rng where
  ira := Vector.replicate 37 0
  rndptr := 0
  borrow := 0

/-- One round of the loop in `brand`; the lagged index runs `NK - NJ = 13` ahead. -/
def refillRound (i : Nat) : Vector UInt32 37 × UInt32 → Vector UInt32 37 × UInt32
  | (ira, borrow) =>
      let t := ira[(i + 13) % 37]!
      let pdiff := t - ira[i]! - borrow
      (ira.set! i pdiff, if pdiff < t then 0 else if pdiff > t then 1 else borrow)

def brand (rng : Rng) : UInt32 × Rng :=
  let rndptr := rng.rndptr + 1
  if rndptr < 37 then (rng.ira[rndptr]!, { rng with rndptr })
  else
    let (ira, borrow) := forRange 0 37 refillRound (rng.ira, rng.borrow)
    (ira[0]!, { ira, rndptr := 0, borrow })

def brandNext (rng : Rng) : Rng := (brand rng).2

/-- The quick start at the end of `mirsys_basic`; the state before is forgotten. -/
def mirsysRng : Rng :=
  let start := ((Vector.replicate 37 0).set! 0 0x55555555).set! 1 0x12345678
  { ira := forRange 2 35
      (fun i ira => ira.set! i (ira[i - 1]! + ira[i - 2]! + 0x1379BDF1)) start
    rndptr := 37
    borrow := 0 }

def irandRound (i : Nat) :
    Vector UInt32 37 × UInt32 × UInt32 → Vector UInt32 37 × UInt32 × UInt32
  | (ira, m, seed) => (ira.set! ((14 * i) % 37) m, seed - m, m)

def irand (seed : UInt32) (rng : Rng) : Rng :=
  let (ira, _, _) := forRange 1 36 irandRound (rng.ira.set! 0 seed, 1, seed)
  forRange 0 1000 (fun _ rng => brandNext rng) { ira, rndptr := 0, borrow := 0 }

/-! ## Big random numbers -/

def bigLen (w : Nat) : Nat := if w = 0 then 0 else w.log2 / 32 + 1

/-- The loop of `bigrand`: words are appended until the number is not below `w`,
numbers of fewer words counting as smaller. One word more than `w` has ends it. -/
def bigrandWords (w : Nat) : (fuel m value : Nat) → Rng → Nat × Rng
  | 0, _, value, rng => (value, rng)
  | fuel + 1, m, value, rng =>
      let (r, rng) := brand rng
      let value := value + r.toNat * 2 ^ (32 * m)
      if m + 1 < bigLen w ∨ (m + 1 = bigLen w ∧ value < w) then
        bigrandWords w fuel (m + 1) value rng
      else (value, rng)

theorem bigrandWords_succ (w fuel m value : Nat) (rng : Rng) :
    bigrandWords w (fuel + 1) m value rng =
      if m + 1 < bigLen w ∨
          (m + 1 = bigLen w ∧ value + (brand rng).1.toNat * 2 ^ (32 * m) < w) then
        bigrandWords w fuel (m + 1) (value + (brand rng).1.toNat * 2 ^ (32 * m)) (brand rng).2
      else (value + (brand rng).1.toNat * 2 ^ (32 * m), (brand rng).2) := rfl

def bigrand (w : Nat) (rng : Rng) : Nat × Rng :=
  let (value, rng) := bigrandWords w (bigLen w + 1) 0 0 rng
  (value % w, rng)

def bigrandUntil (w : Nat) (reject : Nat → Bool) : (fuel : Nat) → Rng → Option (Nat × Rng)
  | 0, _ => none
  | fuel + 1, rng =>
      let (x, rng) := bigrand w rng
      if reject x then bigrandUntil w reject fuel rng else some (x, rng)

theorem bigrandUntil_succ (w : Nat) (reject : Nat → Bool) (fuel : Nat) (rng : Rng) :
    bigrandUntil w reject (fuel + 1) rng =
      if reject (bigrand w rng).1 then bigrandUntil w reject fuel (bigrand w rng).2
      else some (bigrand w rng) := rfl

def bigdig (fuel n b : Nat) (rng : Rng) : Option (Nat × Rng) :=
  bigrandUntil (b ^ n) (fun x => x < b ^ n / b) fuel rng

end Penglai.Gm

import Penglai.Miracl.Lehmer
import Penglai.Miracl.Registers
import Penglai.Miracl.Division
import Penglai.Miracl.Multiplication

namespace Penglai.Miracl

open Gm (XgcdState xgcdStep)

/-! # The extended Euclidean algorithm

`xgcd` on the long numbers: each round makes one long division, or all the divisions
that the leading digits of the numbers have given away. -/

/-! ## The code -/

def leadingStart (u v : UInt64) (iter : Nat) : Lehmer where
  a := 1
  b := 0
  c := 0
  d := 1
  u := u
  v := v
  dplus := true
  iter := iter

namespace Mip

def swap (x y : Slot) (mip : Mip) : Mip := (mip.set x (mip.bigs y)).set y (mip.bigs x)

def xgcdDivide (mip : Mip) : Mip :=
  let mip := mip.divide (.w 1) (.w 2) (.w 5)
  let mip := mip.swap (.w 1) (.w 2)
  let mip := mip.multiply (.w 4) (.w 5) (.w 0)
  let mip := mip.add (.w 3) (.w 0) (.w 3)
  mip.swap (.w 3) (.w 4)

/-- The two numbers after the divisions with these cofactors. -/
def xgcdReduce (state : Lehmer) (mip : Mip) : Mip :=
  let mip := mip.mrPmul (.w 1) state.c (.w 5)
  let mip := mip.mrPmul (.w 1) state.a (.w 1)
  let mip := mip.mrPmul (.w 2) state.b (.w 0)
  let mip := mip.mrPmul (.w 2) state.d (.w 2)
  if !state.dplus then (mip.mrPsub (.w 0) (.w 1) (.w 1)).mrPsub (.w 5) (.w 2) (.w 2)
  else (mip.mrPsub (.w 1) (.w 0) (.w 1)).mrPsub (.w 2) (.w 5) (.w 2)

def xgcdUpdate (state : Lehmer) (mip : Mip) : Mip :=
  let mip := mip.xgcdReduce state
  let mip := mip.mrPmul (.w 3) state.c (.w 5)
  let mip := mip.mrPmul (.w 3) state.a (.w 3)
  let mip := mip.mrPmul (.w 4) state.b (.w 0)
  let mip := mip.mrPmul (.w 4) state.d (.w 4)
  let mip := if state.a = 0 then mip.copy (.w 0) (.w 3) else mip.mrPadd (.w 3) (.w 0) (.w 3)
  mip.mrPadd (.w 4) (.w 5) (.w 4)

/-- Two calls of `muldvm`: the three leading words divided by `m`. -/
def scaledDigits (m : UInt32) (n : Nat) (w : Nat → UInt32) : UInt64 :=
  let (top, sr) := divWords (w (n - 2)) (w (n - 1)) m
  doubleword top (divWords (w (n - 3)) sr m).1

def leadingDigits (last : Bool) (mip : Mip) : Bool × UInt64 × UInt64 :=
  let w1 := mip.bigs (.w 1)
  let w2 := mip.bigs (.w 2)
  let n := w1.len
  if n = 1 then (true, (w1.w 0).toUInt64, (w2.w 0).toUInt64)
  else
    let m := w1.w (n - 1) + 1
    if n > 2 ∧ m ≠ 0 then (last, scaledDigits m n w1.w, scaledDigits m n w2.w)
    else
      (last || decide (n = 2), doubleword (w1.w (n - 1)) (w1.w (n - 2)),
        doubleword (w2.w (n - 1)) (w2.w (n - 2)))

/-- The loop `while (size(w2) != 0)`. The second number decreases in every round, so the
fuel is never used up. -/
def xgcdLoop : (fuel : Nat) → (last : Bool) → Lehmer → Mip → Lehmer × Mip
  | 0, _, state, mip => (state, mip)
  | fuel + 1, last, state, mip =>
      if (mip.bigs (.w 2)).size = 0 then (state, mip)
      else
        let (state, mip) :=
          if state.b = 0 then ({ state with iter := state.iter + 1 }, mip.xgcdDivide)
          else (state, mip.xgcdUpdate state)
        if mip.ernum.isSome ∨ (mip.bigs (.w 2)).size = 0 then (state, mip)
        else
          let (last, u, v) := mip.leadingDigits last
          let state := Lehmer.loop last (v.toNat + 1) (leadingStart u v state.iter)
          xgcdLoop fuel last { state with iter := state.iter % 2 } mip

def xgcdStart (x y : Slot) (mip : Mip) : Int × Mip :=
  let mip := (mip.copy x (.w 1)).copy y (.w 2)
  let s := mip.exsign (.w 1)
  let mip := (mip.absolute (.w 1)).absolute (.w 2)
  (s, (mip.convert 1 (.w 3)).zero (.w 4))

/-- `xgcd(x, y, xd, xd, z)`: the first cofactor and the greatest common divisor. -/
def xgcd (x y xd z : Slot) (mip : Mip) : Mip × Int :=
  if mip.ernum.isSome then (mip, 0)
  else
    let (s, mip) := mip.xgcdStart x y
    let (state, mip) := mip.xgcdLoop ((mip.bigs (.w 2)).magnitude + 1) false
      { a := 0, b := 0, c := 0, d := 0, u := 0, v := 0, dplus := true, iter := 0 }
    let iter := if s < 0 then state.iter + 1 else state.iter
    let mip := if iter % 2 = 1 then mip.subtract y (.w 3) (.w 3) else mip
    let mip := mip.copy (.w 3) xd
    let mip := if z ≠ xd then mip.copy (.w 1) z else mip
    (mip, (mip.bigs (.w 1)).size)

def invmodp (x y z : Slot) (mip : Mip) : Mip × Int := mip.xgcd x y z z

end Mip

/-! ## Natural numbers in the registers -/

namespace Registers

variable {scratch : Slot → Prop} {mip mip' : Mip} {registers : Slot → Option Nat}
  (before : Registers Big.ofNat scratch mip mip' registers) {x y z : Slot} {X Y : Nat}
  (xHolds : registers x = some X) (yHolds : registers y = some Y) (inside : scratch z)

include before xHolds

theorem normal : (mip'.bigs x).Normal := by
  rw [before.holds xHolds]
  exact Big.ofNat_normal X

theorem magnitude : (mip'.bigs x).magnitude = X := by
  rw [before.holds xHolds, Big.magnitude_ofNat]

theorem value : mip'.value x = X := Mip.value_ofNat (before.holds xHolds)

include inside

theorem copied : Registers Big.ofNat scratch mip (mip'.copy x z)
    (Function.update registers z (some X)) := by
  rw [Mip.copy_eq x z before.clean, before.holds xHolds]
  exact before.set inside (Big.ofNat_normal X)

theorem pmul (sn : UInt32) (fits : X * sn.toNat < wordBase ^ mip.nib) :
    Registers Big.ofNat scratch mip (mip'.mrPmul x sn z)
      (Function.update registers z (some (X * sn.toNat))) := by
  rw [Mip.mrPmul_eq before.clean (before.normal xHolds) sn z fun _ => by
      rw [before.magnitude xHolds, before.nib]
      exact fits.trans_le (Nat.pow_le_pow_right Big.wordBase_pos (Nat.le_max_left _ _)),
    before.value xHolds, ← Nat.cast_mul, Big.ofInt_natCast]
  exact before.set inside (Big.ofNat_normal _)

include yHolds

theorem padd (fits : X + Y < wordBase ^ mip.nib) :
    Registers Big.ofNat scratch mip (mip'.mrPadd x y z)
      (Function.update registers z (some (X + Y))) := by
  rw [Mip.mrPadd_eq before.clean (before.normal xHolds) (before.normal yHolds) z fun _ => by
      rw [before.magnitude xHolds, before.magnitude yHolds, before.nib]
      exact fits,
    before.magnitude xHolds, before.magnitude yHolds]
  exact before.set inside (Big.ofNat_normal _)

theorem psub (le : Y ≤ X) : Registers Big.ofNat scratch mip (mip'.mrPsub x y z)
    (Function.update registers z (some (X - Y))) := by
  rw [Mip.mrPsub_eq before.clean (before.normal yHolds) z (by
      rw [before.magnitude xHolds, before.magnitude yHolds]
      exact le),
    before.magnitude xHolds, before.magnitude yHolds]
  exact before.set inside (Big.ofNat_normal _)

theorem added (ready : mip.ernum = none) (fits : X + Y < wordBase ^ mip.nib) :
    Registers Big.ofNat scratch mip (mip'.add x y z)
      (Function.update registers z (some (X + Y))) := by
  rw [Mip.add_eq before.clean (before.ready ready) (before.normal xHolds) (before.normal yHolds) z
      fun _ => by
        rw [before.value xHolds, before.value yHolds, before.nib, ← Nat.cast_add, Int.natAbs_natCast]
        exact fits,
    before.value xHolds, before.value yHolds, ← Nat.cast_add, Big.ofInt_natCast]
  exact before.set inside (Big.ofNat_normal _)

theorem multiplied (ready : mip.ernum = none) (work : scratch (.w 0)) (xApart : x ≠ .w 0)
    (yApart : y ≠ .w 0) (zApart : z ≠ .w 5)
    (room : Big.wordCount X + Big.wordCount Y ≤ mip.nib) :
    Registers Big.ofNat scratch mip (mip'.multiply x y z)
      (Function.update (Function.update registers (.w 0) none) z (some (X * Y))) := by
  have place : Mip.productSlot x y z = .w 0 := if_neg fun all => zApart all.2.2
  have product := Mip.multiply_yields before.clean (before.ready ready) (x := x) (y := y) (z := z)
    (by rwa [place]) (by rwa [place]) (Or.inl (by
      rw [before.holds xHolds, before.holds yHolds, before.nib]
      exact room))
  rw [place, before.value xHolds, before.value yHolds, ← Nat.cast_mul] at product
  exact before.yields product work inside (Big.ofInt_natCast _)

end Registers

namespace Registers

variable {scratch : Slot → Prop} {mip mip' : Mip} {registers : Slot → Option Nat}
  (before : Registers Big.ofNat scratch mip mip' registers) {x y z : Slot} {X Y : Nat}
  (xHolds : registers x = some X) (yHolds : registers y = some Y)

include before xHolds yHolds

theorem swapped (xInside : scratch x) (yInside : scratch y) :
    Registers Big.ofNat scratch mip (mip'.swap x y)
      (Function.update (Function.update registers x (some Y)) y (some X)) := by
  rw [Mip.swap, before.holds xHolds, before.holds yHolds]
  exact (before.set xInside (Big.ofNat_normal Y)).set yInside (Big.ofNat_normal X)

theorem divided (ready : mip.ernum = none) (work : scratch (.w 0)) (xInside : scratch x)
    (zInside : scratch z) (xApart : x ≠ y) (zNotX : z ≠ x) (zNotY : z ≠ y) (yNotWork : y ≠ .w 0)
    (zNotWork : z ≠ .w 0) (nonzero : Y ≠ 0)
    (room : Big.wordCount X + 1 ≤ mip.nib + Big.wordCount Y) :
    Registers Big.ofNat scratch mip (mip'.divide x y z)
      (Function.update (Function.update (Function.update registers (.w 0) none) z (some (X / Y))) x
        (some (X % Y))) := by
  have result := Mip.divide_divided (z := z) before.clean (before.ready ready)
    (before.normal xHolds) (before.normal yHolds) xApart
    (by rw [before.holds yHolds]; exact Mip.ofNat_len_ne_zero.mpr nonzero) yNotWork zNotWork
    fun _ => by
      rw [before.holds xHolds, before.holds yHolds, before.nib]
      exact room
  have quotient := result.quotient zNotY
  have remainder := result.remainder zNotX
  rw [before.value xHolds, before.value yHolds, ← Int.ofNat_tdiv, Big.ofInt_natCast] at quotient
  rw [before.value xHolds, before.value yHolds, ← Int.ofNat_tmod, Big.ofInt_natCast] at remainder
  constructor
  · rw [result.rest, before.rest]
  · exact result.clean
  · intro slot value holds
    rw [Function.update_apply, Function.update_apply, Function.update_apply] at holds
    split at holds
    · rename_i same
      rw [same, remainder, Option.some_inj.mp holds]
    · rename_i notX
      split at holds
      · rename_i same
        rw [same, quotient, Option.some_inj.mp holds]
      · rename_i notZ
        split at holds
        · cases holds
        · rename_i notWork
          rw [result.kept slot notX notZ notWork]
          exact before.holds holds
  · intro slot outside
    have apart : ∀ {other : Slot}, scratch other → slot ≠ other := by
      rintro other inside rfl
      exact outside inside
    rw [result.kept slot (apart xInside) (apart zInside) (apart work)]
    exact before.kept slot outside

end Registers

/-! ## Sizes -/

structure Sized (nib Y : Nat) (state : XgcdState) : Prop where
  first : state.w1 < wordBase ^ nib
  second : state.w2 ≤ Y
  third : state.w3 ≤ Y + 1
  fourth : state.w4 ≤ Y
  cross : state.w1 * state.w4 + state.w2 * state.w3 = Y

theorem Sized.step {nib Y : Nat} {state : XgcdState} (sized : Sized nib Y state)
    (fits : Y < wordBase ^ nib) (more : state.w2 ≠ 0) : Sized nib Y (xgcdStep state) := by
  have division := Nat.div_add_mod state.w1 state.w2
  have cross : state.w2 * (state.w3 + state.w4 * (state.w1 / state.w2)) +
      state.w1 % state.w2 * state.w4 = Y := by
    calc state.w2 * (state.w3 + state.w4 * (state.w1 / state.w2)) + state.w1 % state.w2 * state.w4
        = (state.w2 * (state.w1 / state.w2) + state.w1 % state.w2) * state.w4 +
            state.w2 * state.w3 := by ring
      _ = Y := by rw [division, sized.cross]
  constructor
  · exact sized.second.trans_lt fits
  · exact (xgcdStep_lt more).le.trans sized.second
  · exact sized.fourth.trans (Nat.le_succ Y)
  · exact (Nat.le_mul_of_pos_left _ (Nat.pos_of_ne_zero more)).trans
      ((Nat.le_add_right _ _).trans_eq cross)
  · exact cross

theorem Sized.steps {nib Y : Nat} {state next : XgcdState} (sized : Sized nib Y state)
    (fits : Y < wordBase ^ nib) (steps : Relation.TransGen Divides state next) :
    Sized nib Y next := by
  induction steps with
  | single step =>
      rcases step with ⟨more, rfl⟩
      exact sized.step fits more
  | tail _ step induction =>
      rcases step with ⟨more, rfl⟩
      exact induction.step fits more

theorem wordCount_add_le {X Y bound : Nat} (product : X * Y < wordBase ^ bound)
    (short : Big.wordCount Y ≤ bound + 1) (short' : Big.wordCount X ≤ bound + 1) :
    Big.wordCount X + Big.wordCount Y ≤ bound + 1 := by
  cases xLength : Big.wordCount X with
  | zero => omega
  | succ i =>
      cases yLength : Big.wordCount Y with
      | zero => omega
      | succ j =>
          have low := Nat.mul_le_mul (Big.pow_le_of_wordCount xLength)
            (Big.pow_le_of_wordCount yLength)
          rw [← pow_add] at low
          have less := (Nat.pow_lt_pow_iff_right Big.one_lt_wordBase).mp (low.trans_lt product)
          omega

theorem wordCount_le {X bound : Nat} (less : X < wordBase ^ bound) : Big.wordCount X ≤ bound := by
  by_contra longer
  exact Nat.not_lt.mpr (Big.lt_wordCount.mp (Nat.not_le.mp longer)) less

/-! ## One round -/

/-- The numbers that `xgcd` calculates in. -/
def working : Slot → Prop
  | .w i => i ≤ 5
  | _ => False

theorem working_w {i : Nat} (le : i ≤ 5) : working (.w i) := le

def xgcdRegisters (state : XgcdState) : Slot → Option Nat
  | .w 1 => some state.w1
  | .w 2 => some state.w2
  | .w 3 => some state.w3
  | .w 4 => some state.w4
  | _ => none

section Round

variable {mip mip' : Mip} {start : XgcdState} {Y : Nat}
  (before : Registers Big.ofNat working mip mip' (xgcdRegisters start))
  (ready : mip.ernum = none) (sized : Sized mip.nib Y start)
  (room : Big.wordCount Y + 1 ≤ mip.nib)

include room in
theorem lt_pow_nib {X : Nat} (sn : UInt32) (small : X ≤ Y + 1) :
    X * sn.toNat < wordBase ^ mip.nib := by
  have high : X ≤ wordBase ^ Big.wordCount Y := small.trans (Big.lt_pow_wordCount Y)
  calc X * sn.toNat ≤ wordBase ^ Big.wordCount Y * sn.toNat := Nat.mul_le_mul_right _ high
    _ < wordBase ^ Big.wordCount Y * wordBase :=
        Nat.mul_lt_mul_of_pos_left (Big.word_lt sn) (Nat.pow_pos Big.wordBase_pos)
    _ = wordBase ^ (Big.wordCount Y + 1) := (pow_succ _ _).symm
    _ ≤ wordBase ^ mip.nib := Nat.pow_le_pow_right Big.wordBase_pos room

include before ready sized room in
theorem xgcdDivide_registers (more : start.w2 ≠ 0) :
    Registers Big.ofNat working mip mip'.xgcdDivide (xgcdRegisters (xgcdStep start)) := by
  have power : wordBase ^ Big.wordCount Y ≤ wordBase ^ mip.nib :=
    Nat.pow_le_pow_right Big.wordBase_pos (by omega)
  have next := sized.step ((Big.lt_pow_wordCount Y).trans_le power) more
  have w1Length := wordCount_le sized.first
  have w2Length : 0 < Big.wordCount start.w2 :=
    Big.lt_wordCount.mpr (by rw [pow_zero]; exact Nat.pos_of_ne_zero more)
  have w4Length := wordCount_le (sized.fourth.trans_lt (Big.lt_pow_wordCount Y))
  have w3Bound := lt_pow_nib (X := (xgcdStep start).w4) room 1 (by
    have := next.fourth
    omega)
  have productRoom : Big.wordCount start.w4 + Big.wordCount (start.w1 / start.w2) ≤ mip.nib := by
    have quotientLength := wordCount_le ((Nat.div_le_self start.w1 start.w2).trans_lt sized.first)
    have product : start.w4 * (start.w1 / start.w2) < wordBase ^ (mip.nib - 1) := by
      calc start.w4 * (start.w1 / start.w2) ≤ (xgcdStep start).w4 := Nat.le_add_left _ _
        _ ≤ Y := next.fourth
        _ < wordBase ^ Big.wordCount Y := Big.lt_pow_wordCount Y
        _ ≤ wordBase ^ (mip.nib - 1) := Nat.pow_le_pow_right Big.wordBase_pos (by omega)
    have short := wordCount_add_le product (by omega) (by omega)
    omega
  rw [UInt32.toNat_one, Nat.mul_one] at w3Bound
  have divided := before.divided (x := .w 1) (y := .w 2) (z := .w 5) rfl rfl ready
    (working_w (by decide)) (working_w (by decide)) (working_w (by decide)) (by decide) (by decide)
    (by decide) (by decide) (by decide) more (by omega)
  have exchanged := divided.swapped (x := .w 1) (y := .w 2) rfl rfl (working_w (by decide))
    (working_w (by decide))
  have multiplied := exchanged.multiplied (x := .w 4) (y := .w 5) (z := .w 0) rfl rfl
    (working_w (by decide)) ready (working_w (by decide)) (by decide) (by decide) (by decide)
    productRoom
  have summed := multiplied.added (x := .w 3) (y := .w 0) (z := .w 3) rfl rfl
    (working_w (by decide)) ready w3Bound
  have result := summed.swapped (x := .w 3) (y := .w 4) rfl rfl (working_w (by decide))
    (working_w (by decide))
  apply result.weaken
  intro slot value holds
  unfold xgcdRegisters at holds
  split at holds
  · exact holds
  · exact holds
  · exact holds
  · exact holds
  · cases holds

theorem updated {current : XgcdState} {state : Lehmer} (taken : Lehmer.Taken start current state) :
    if state.dplus then
      start.w1 * state.a.toNat = start.w2 * state.b.toNat + current.w1 ∧
        start.w2 * state.d.toNat = start.w1 * state.c.toNat + current.w2
    else
      start.w2 * state.b.toNat = start.w1 * state.a.toNat + current.w1 ∧
        start.w1 * state.c.toNat = start.w2 * state.d.toNat + current.w2 := by
  have determinant := taken.determinant
  rw [taken.first, taken.second]
  split
  · rename_i plus
    rw [plus, if_pos rfl] at determinant
    constructor
    · linear_combination current.w1 * determinant
    · linear_combination current.w2 * determinant
  · rename_i minus
    rw [if_neg minus] at determinant
    constructor
    · linear_combination current.w1 * determinant
    · linear_combination current.w2 * determinant

include before sized room in
theorem xgcdReduce_registers {current : XgcdState} {state : Lehmer}
    (taken : Lehmer.Taken start current state) (first : start.w1 ≤ Y) :
    Registers Big.ofNat working mip (mip'.xgcdReduce state)
      (xgcdRegisters { start with w1 := current.w1, w2 := current.w2 }) := by
  have second := sized.second
  have numbers := updated taken
  have fits := fun {X : Nat} (sn : UInt32) => lt_pow_nib (X := X) room sn
  have products := (((before.pmul (x := .w 1) (z := .w 5) rfl (working_w (by decide))
    state.c (fits _ (by omega))).pmul (x := .w 1) (z := .w 1) rfl (working_w (by decide))
    state.a (fits _ (by omega))).pmul (x := .w 2) (z := .w 0) rfl (working_w (by decide))
    state.b (fits _ (by omega))).pmul (x := .w 2) (z := .w 2) rfl (working_w (by decide))
    state.d (fits _ (by omega))
  have known : ∀ {registers : Slot → Option Nat} {w1 w2 : Nat}, w1 = current.w1 → w2 = current.w2 →
      registers (.w 3) = some start.w3 → registers (.w 4) = some start.w4 → ∀ {slot value},
      xgcdRegisters { start with w1 := current.w1, w2 := current.w2 } slot = some value →
      Function.update (Function.update registers (.w 1) (some w1)) (.w 2) (some w2) slot =
        some value := by
    rintro registers w1 w2 rfl rfl third fourth slot value holds
    unfold xgcdRegisters at holds
    split at holds
    · exact holds
    · exact holds
    · exact third.trans holds
    · exact fourth.trans holds
    · cases holds
  -- Which of the products are larger depends on the number of divisions.
  rw [Mip.xgcdReduce]
  cases plus : state.dplus with
  | true =>
      rw [plus, if_pos rfl] at numbers
      have difference := (products.psub (x := .w 1) (y := .w 0) (z := .w 1) rfl rfl
        (working_w (by decide)) (by omega)).psub (x := .w 2) (y := .w 5) (z := .w 2) rfl rfl
        (working_w (by decide)) (by omega)
      exact difference.weaken (known (Nat.sub_eq_of_eq_add' numbers.1)
        (Nat.sub_eq_of_eq_add' numbers.2) rfl rfl)
  | false =>
      rw [plus, if_neg Bool.false_ne_true] at numbers
      have difference := (products.psub (x := .w 0) (y := .w 1) (z := .w 1) rfl rfl
        (working_w (by decide)) (by omega)).psub (x := .w 5) (y := .w 2) (z := .w 2) rfl rfl
        (working_w (by decide)) (by omega)
      exact difference.weaken (known (Nat.sub_eq_of_eq_add' numbers.1)
        (Nat.sub_eq_of_eq_add' numbers.2) rfl rfl)

theorem scaledSum {scratch : Slot → Prop} {registers : Slot → Option Nat}
    (before : Registers Big.ofNat scratch mip mip' registers) (inside : scratch (.w 3)) {a : UInt32}
    {X Z : Nat} (xHolds : registers (.w 3) = some (X * a.toNat)) (zHolds : registers (.w 0) = some Z)
    (fits : X * a.toNat + Z < wordBase ^ mip.nib) :
    Registers Big.ofNat scratch mip
      (if a = 0 then mip'.copy (.w 0) (.w 3) else mip'.mrPadd (.w 3) (.w 0) (.w 3))
      (Function.update registers (.w 3) (some (X * a.toNat + Z))) := by
  split
  · rename_i zero
    rw [zero, UInt32.toNat_zero, Nat.mul_zero, Nat.zero_add]
    exact before.copied zHolds inside
  · exact before.padd xHolds zHolds inside fits

include before sized room in
theorem xgcdUpdate_registers {current : XgcdState} {state : Lehmer}
    (taken : Lehmer.Taken start current state) (next : Sized mip.nib Y current)
    (first : start.w1 ≤ Y) :
    Registers Big.ofNat working mip (mip'.xgcdUpdate state) (xgcdRegisters current) := by
  have third := sized.third
  have fourth : start.w4 ≤ Y + 1 := sized.fourth.trans (Nat.le_succ Y)
  have fits := fun {X : Nat} (sn : UInt32) => lt_pow_nib (X := X) room sn
  have products := ((((xgcdReduce_registers before sized room taken first).pmul (X := start.w3)
    (x := .w 3) (z := .w 5) rfl (working_w (by decide)) state.c (fits _ third)).pmul
    (X := start.w3) (x := .w 3) (z := .w 3) rfl (working_w (by decide)) state.a
    (fits _ third)).pmul (X := start.w4) (x := .w 4) (z := .w 0) rfl (working_w (by decide))
    state.b (fits _ fourth)).pmul (X := start.w4) (x := .w 4) (z := .w 4) rfl
    (working_w (by decide)) state.d (fits _ fourth)
  have sum3 : start.w3 * state.a.toNat + start.w4 * state.b.toNat = current.w3 := by
    rw [taken.third]
    ring
  have sum4 : start.w4 * state.d.toNat + start.w3 * state.c.toNat = current.w4 := by
    rw [taken.fourth]
    ring
  have bound3 := fits 1 next.third
  have bound4 := fits 1 (next.fourth.trans (Nat.le_succ Y))
  rw [UInt32.toNat_one, Nat.mul_one] at bound3 bound4
  rw [Mip.xgcdUpdate]
  generalize ((((mip'.xgcdReduce state).mrPmul (.w 3) state.c (.w 5)).mrPmul (.w 3) state.a
    (.w 3)).mrPmul (.w 4) state.b (.w 0)).mrPmul (.w 4) state.d (.w 4) = multiplied at products ⊢
  have summed := scaledSum products (working_w (by decide)) (a := state.a) rfl rfl (by omega)
  have result := summed.padd (x := .w 4) (y := .w 5) (z := .w 4) rfl rfl (working_w (by decide))
    (by omega)
  rw [sum3, sum4] at result
  apply result.weaken
  intro slot value holds
  unfold xgcdRegisters at holds
  split at holds
  · exact holds
  · exact holds
  · exact holds
  · exact holds
  · cases holds

end Round

/-! ## The leading digits -/

theorem split_word (X i : Nat) :
    X / wordBase ^ i = X / wordBase ^ i % wordBase + wordBase * (X / wordBase ^ (i + 1)) := by
  rw [pow_succ, ← Nat.div_div_eq_div_mul]
  exact (Nat.mod_add_div _ _).symm

theorem top_word {X i : Nat} (fits : X < wordBase ^ (i + 1)) :
    X / wordBase ^ i % wordBase = X / wordBase ^ i :=
  Nat.mod_eq_of_lt (Nat.div_lt_of_lt_mul (by rwa [← pow_succ]))

theorem toNat_topWords {X i : Nat} (fits : X < wordBase ^ (i + 2)) :
    (doubleword ((Big.ofNat X).w (i + 1)) ((Big.ofNat X).w i)).toNat = X / wordBase ^ i := by
  have digits := split_word X i
  rw [toNat_doubleword, Big.toNat_word_ofNat, Big.toNat_word_ofNat, top_word fits]
  linarith

theorem toNat_scaledDigits {X i : Nat} {m : UInt32} (fits : X < wordBase ^ (i + 3))
    (less : X / wordBase ^ (i + 2) < m.toNat) :
    (Mip.scaledDigits m (i + 3) (Big.ofNat X).w).toNat = X / (wordBase ^ i * m.toNat) := by
  have word : ((Big.ofNat X).w (i + 2)).toNat = X / wordBase ^ (i + 2) := by
    rw [Big.toNat_word_ofNat, top_word fits]
  have first := divWords_balance ((Big.ofNat X).w (i + 1)) (word ▸ less)
  have second := divWords_balance ((Big.ofNat X).w i) first.2
  rw [Mip.scaledDigits]
  simp only [show i + 3 - 2 = i + 1 by omega, show i + 3 - 1 = i + 2 by omega,
    Nat.add_sub_cancel, toNat_doubleword]
  rw [Big.toNat_word_ofNat, word] at first
  rw [Big.toNat_word_ofNat] at second
  have digits := split_word X i
  rw [split_word X (i + 1)] at digits
  generalize divWords ((Big.ofNat X).w (i + 1)) ((Big.ofNat X).w (i + 2)) m = top at *
  generalize divWords ((Big.ofNat X).w i) top.2 m = bottom at *
  rw [← Nat.div_div_eq_div_mul, digits]
  symm
  apply Nat.div_eq_of_lt_le
  · calc _ = m.toNat * (top.1.toNat * wordBase + bottom.1.toNat) := by ring
      _ ≤ _ := by nlinarith
  · nlinarith

theorem leading_div {scale X Y : Nat} (positive : 0 < scale) (ordered : Y ≤ X) {u v : UInt64}
    (first : u.toNat = X / scale) (second : v.toNat = Y / scale) (iter : Nat) :
    Lehmer.Leading scale X Y false (leadingStart u v iter) := by
  have uBound := u.toNat_lt
  have vBound := v.toNat_lt
  have le : v.toNat ≤ u.toNat := by
    rw [first, second]
    exact Nat.div_le_div_right ordered
  have margins : (leadingStart u v iter).uLow = 0 ∧ (leadingStart u v iter).uHigh = 1 ∧
      (leadingStart u v iter).vLow = 0 ∧ (leadingStart u v iter).vHigh = 1 := ⟨rfl, rfl, rfl, rfl⟩
  have digits : (leadingStart u v iter).u = u ∧ (leadingStart u v iter).v = v := ⟨rfl, rfl⟩
  apply Lehmer.Leading.digits
  · rw [margins.1, margins.2.1, digits.1, first]
    exact approximates_div positive X
  · rw [margins.2.2.1, margins.2.2.2, digits.2, second]
    exact approximates_div positive Y
  · rw [margins.2.1, digits.1]
    omega
  · rw [margins.2.2.2, digits.2]
    omega
  · rw [margins.1, margins.2.1, margins.2.2.1, margins.2.2.2, digits.1, digits.2]
    omega

theorem leadingDigits_leading {mip : Mip} {X Y : Nat} (w1 : mip.bigs (.w 1) = Big.ofNat X)
    (w2 : mip.bigs (.w 2) = Big.ofNat Y) (ordered : Y ≤ X) (positive : 0 < X) {last : Bool}
    (short : last = true → X < wordBase ^ 2) (iter : Nat) :
    let (last, u, v) := mip.leadingDigits last
    (∃ scale, Lehmer.Leading scale X Y last (leadingStart u v iter)) ∧
      (last = true → X < wordBase ^ 2) := by
  have length : (Big.ofNat X).len = Big.wordCount X := rfl
  have bound := Big.lt_pow_wordCount X
  have words : 0 < Big.wordCount X := Big.lt_wordCount.mpr (by rwa [pow_zero])
  rw [Mip.leadingDigits]
  simp only [w1, w2, length]
  split
  · rename_i one
    rw [one, pow_one] at bound
    have first : ((Big.ofNat X).w 0).toUInt64.toNat = X := by
      rw [UInt32.toNat_toUInt64, Big.toNat_word_ofNat, pow_zero, Nat.div_one, Nat.mod_eq_of_lt bound]
    have second : ((Big.ofNat Y).w 0).toUInt64.toNat = Y := by
      rw [UInt32.toNat_toUInt64, Big.toNat_word_ofNat, pow_zero, Nat.div_one,
        Nat.mod_eq_of_lt (ordered.trans_lt bound)]
    exact ⟨⟨0, .whole first second ordered⟩, fun _ => bound.trans_le
      (Nat.le_self_pow (by decide) wordBase)⟩
  · rename_i several
    obtain ⟨i, size⟩ : ∃ i, Big.wordCount X = i + 2 := ⟨Big.wordCount X - 2, by omega⟩
    have low := Big.pow_le_of_wordCount (i := i + 1) size
    have notLast : i ≠ 0 → last = false := by
      intro more
      rw [← Bool.not_eq_true]
      intro finished
      have two := (Nat.pow_lt_pow_iff_right Big.one_lt_wordBase).mp (low.trans_lt (short finished))
      omega
    rw [size] at bound ⊢
    simp only [show i + 2 - 1 = i + 1 by omega, Nat.add_sub_cancel]
    split
    · rename_i long
      obtain ⟨k, rfl⟩ : ∃ k, i = k + 1 := ⟨i - 1, by omega⟩
      have top : ((Big.ofNat X).w (k + 2)).toNat = X / wordBase ^ (k + 2) := by
        rw [Big.toNat_word_ofNat, top_word bound]
      have next : ((Big.ofNat X).w (k + 2) + 1).toNat = X / wordBase ^ (k + 2) + 1 := by
        have nonzero : ((Big.ofNat X).w (k + 2) + 1).toNat ≠ 0 := fun zero =>
          long.2 (UInt32.toNat_inj.mp zero)
        have wordBound := ((Big.ofNat X).w (k + 2)).toNat_lt
        rw [UInt32.toNat_add, UInt32.toNat_one] at nonzero ⊢
        omega
      have less : ∀ {Z}, Z ≤ X → Z / wordBase ^ (k + 2) < ((Big.ofNat X).w (k + 2) + 1).toNat := by
        intro Z le
        rw [next]
        exact Nat.lt_succ_of_le (Nat.div_le_div_right le)
      have scalePositive : 0 < wordBase ^ k * ((Big.ofNat X).w (k + 2) + 1).toNat :=
        Nat.mul_pos (Nat.pow_pos Big.wordBase_pos) (Nat.zero_lt_of_lt (less (Nat.le_refl X)))
      have first := toNat_scaledDigits bound (less (Nat.le_refl X))
      have second := toNat_scaledDigits (ordered.trans_lt bound) (less ordered)
      rw [notLast (by omega)]
      exact ⟨⟨_, leading_div scalePositive ordered first second iter⟩, fun finished => by
        cases finished⟩
    · have first := toNat_topWords bound
      have second := toNat_topWords (ordered.trans_lt bound)
      cases i with
      | zero =>
          rw [pow_zero, Nat.div_one] at first second
          simp only [Nat.zero_add, decide_true, Bool.or_true]
          exact ⟨⟨0, .whole first second ordered⟩, fun _ => bound⟩
      | succ k =>
          have longer : decide (k + 1 + 2 = 2) = false := decide_eq_false (by omega)
          rw [notLast (by omega), longer]
          exact ⟨⟨_, leading_div (Nat.pow_pos Big.wordBase_pos) ordered first second iter⟩,
            fun finished => by cases finished⟩

/-! ## All rounds -/

theorem leadingStart_fits (u v : UInt64) (iter : Nat) : Lehmer.Fits (leadingStart u v iter) where
  ascending := Or.inr ⟨rfl, rfl⟩
  positive := Nat.one_pos
  bBound := (by decide : (0 : UInt32).toNat < 2 ^ 31)
  dBound := (by decide : (1 : UInt32).toNat < 2 ^ 31)

theorem leadingStart_taken {current : XgcdState} {iter : Nat}
    (parity : decide (iter % 2 = 1) = current.odd) (u v : UInt64) :
    Lehmer.Taken current current (leadingStart u v iter) where
  first := by simp [leadingStart]
  second := by simp [leadingStart]
  third := by simp [leadingStart]
  fourth := by simp [leadingStart]
  determinant := rfl
  parity := parity
  reached := Or.inl ⟨rfl, rfl⟩

/-- Where the loop of `xgcd` is: with the numbers of one state of Euclid's algorithm, and the
cofactors of the divisions that come next. -/
structure Head (mip mip' : Mip) (Y : Nat) (start : XgcdState) (last : Bool) (state : Lehmer) :
    Prop where
  holds : Registers Big.ofNat working mip mip' (xgcdRegisters start)
  sized : Sized mip.nib Y start
  short : last = true → start.w1 < wordBase ^ 2 ∧ start.w2 ≤ start.w1
  pending : state.b = 0 ∧ decide (state.iter % 2 = 1) = start.odd ∨
    state.b ≠ 0 ∧ start.w1 ≤ Y ∧ ∃ current, Lehmer.Taken start current state

structure Reached (mip mip' : Mip) (start : XgcdState) (iter : Nat) (current : XgcdState) : Prop where
  holds : Registers Big.ofNat working mip mip' (xgcdRegisters current)
  steps : Relation.TransGen Divides start current
  parity : decide (iter % 2 = 1) = current.odd

section Loop

variable {mip mip' : Mip} {Y : Nat} (ready : mip.ernum = none)
  (room : Big.wordCount Y + 1 ≤ mip.nib) {start : XgcdState} {last : Bool} {state : Lehmer}

include room in
theorem lt_pow_nib_self : Y < wordBase ^ mip.nib :=
  (Big.lt_pow_wordCount Y).trans_le (Nat.pow_le_pow_right Big.wordBase_pos (by omega))

include ready room in
theorem Head.reached (head : Head mip mip' Y start last state) (more : start.w2 ≠ 0) :
    let (state, mip'') :=
      if state.b = 0 then ({ state with iter := state.iter + 1 }, mip'.xgcdDivide)
      else (state, mip'.xgcdUpdate state)
    ∃ current, Reached mip mip'' start state.iter current := by
  rcases head.pending with ⟨none, parity⟩ | ⟨some, first, current, taken⟩
  · rw [if_pos none]
    refine ⟨xgcdStep start, xgcdDivide_registers head.holds ready head.sized room more,
      .single ⟨more, rfl⟩, ?_⟩
    simp only [xgcdStep]
    rw [← parity, ← decide_not]
    congr 1
    apply propext
    omega
  · have steps := (taken.reached.resolve_left fun none => some none.1).2
    rw [if_neg some]
    exact ⟨current, xgcdUpdate_registers head.holds head.sized room taken
      (head.sized.steps (lt_pow_nib_self room) steps) first, steps, taken.parity⟩

theorem Reached.head {iter : Nat} {current : XgcdState}
    (reached : Reached mip mip' start iter current) (sized : Sized mip.nib Y start)
    (fits : Y < wordBase ^ mip.nib) (more : current.w2 ≠ 0)
    (short : last = true → start.w1 < wordBase ^ 2 ∧ start.w2 ≤ start.w1) :
    let (last, u, v) := mip'.leadingDigits last
    let state := Lehmer.loop last (v.toNat + 1) (leadingStart u v iter)
    Head mip mip' Y current last { state with iter := state.iter % 2 } := by
  rcases divides_shrinks reached.steps with ⟨-, ordered, le, -⟩
  have stillShort : last = true → current.w1 < wordBase ^ 2 := fun finished =>
    (le.trans (short finished).2).trans_lt (short finished).1
  have leading := leadingDigits_leading (reached.holds.holds rfl) (reached.holds.holds rfl) ordered.le
    (Nat.zero_lt_of_lt ordered) stillShort iter
  generalize mip'.leadingDigits last = digits at leading ⊢
  rcases digits with ⟨last, u, v⟩
  rcases leading with ⟨⟨scale, leading⟩, lastShort⟩
  have position : Lehmer.Position scale current last
      (Lehmer.loop last (v.toNat + 1) (leadingStart u v iter)) := Lehmer.loop_position
    ⟨leadingStart_fits u v iter, current, leading, leadingStart_taken reached.parity u v⟩
  simp only
  generalize Lehmer.loop last (v.toNat + 1) (leadingStart u v iter) = state at position ⊢
  rcases position.current with ⟨next, -, taken⟩
  have parity : decide (state.iter % 2 % 2 = 1) = next.odd := by
    rw [Nat.mod_mod]
    exact taken.parity
  refine ⟨reached.holds, sized.steps fits reached.steps,
    fun finished => ⟨lastShort finished, ordered.le⟩, ?_⟩
  rcases taken.reached with ⟨none, rfl⟩ | ⟨some, steps⟩
  · exact Or.inl ⟨none, parity⟩
  · exact Or.inr ⟨some, le.trans sized.second, next,
      { taken with parity }⟩

include ready room in
theorem xgcdLoop_final : ∀ {fuel : Nat} {mip' : Mip} {start : XgcdState} {last : Bool}
    {state : Lehmer}, Head mip mip' Y start last state → start.w2 < fuel →
    Registers Big.ofNat working mip (mip'.xgcdLoop fuel last state).2
        (xgcdRegisters (xgcdFinal start)) ∧
      decide ((mip'.xgcdLoop fuel last state).1.iter % 2 = 1) = (xgcdFinal start).odd ∧
      Sized mip.nib Y (xgcdFinal start)
  | 0, _, _, _, _, _, short => absurd short (Nat.not_lt_zero _)
  | fuel + 1, mip', start, last, state, head, enough => by
      have empty : ∀ {m : Mip} {s : XgcdState}, Registers Big.ofNat working mip m (xgcdRegisters s) →
          ((m.bigs (.w 2)).size = 0 ↔ s.w2 = 0) := fun holds => by
        rw [(holds.normal (x := .w 2) rfl).size_eq_zero, holds.magnitude (x := .w 2) rfl]
      rw [Mip.xgcdLoop]
      simp only [empty head.holds]
      split
      · rename_i done
        rw [xgcdFinal_done done]
        refine ⟨head.holds, ?_, head.sized⟩
        rcases head.pending with ⟨-, parity⟩ | ⟨some, -, current, taken⟩
        · exact parity
        · have steps := (taken.reached.resolve_left fun none => some none.1).2
          exact absurd (divides_shrinks steps).2.2.2 (by omega)
      · rename_i more
        have reached := head.reached ready room more
        generalize (if state.b = 0 then ({ state with iter := state.iter + 1 }, mip'.xgcdDivide)
          else (state, mip'.xgcdUpdate state)) = round at reached ⊢
        rcases round with ⟨state, mip''⟩
        rcases reached with ⟨current, reached⟩
        rcases divides_shrinks reached.steps with ⟨final, -, -, less⟩
        have noError : mip''.ernum = none := reached.holds.ready ready
        simp only [noError, Option.isSome_none, Bool.false_eq_true, false_or, empty reached.holds]
        rw [← final]
        split
        · rename_i done
          rw [xgcdFinal_done done]
          exact ⟨reached.holds, reached.parity,
            head.sized.steps (lt_pow_nib_self room) reached.steps⟩
        · rename_i still
          exact xgcdLoop_final
            (reached.head head.sized (lt_pow_nib_self room) still head.short) (by omega)

end Loop

/-! ## The theorem -/

theorem xgcdLoop_gcd : ∀ {fuel : Nat} {state : XgcdState}, state.w2 < fuel →
    (Gm.xgcdLoop fuel state).w1 = Nat.gcd state.w1 state.w2
  | 0, _, short => absurd short (Nat.not_lt_zero _)
  | fuel + 1, state, enough => by
      rw [Gm.xgcdLoop]
      split
      · rename_i done
        rw [done, Nat.gcd_zero_right]
      · rename_i more
        have less := xgcdStep_lt more
        rw [xgcdLoop_gcd (by omega), Nat.gcd_comm state.w1, Nat.gcd_rec state.w2 state.w1,
          Nat.gcd_comm]
        rfl

namespace Mip

variable {mip : Mip} {x y z : Slot} {Y : Nat}

theorem not_working {slot : Slot} (outside : ¬working slot) {i : Nat} (le : i ≤ 5) :
    slot ≠ .w i := by
  rintro rfl
  exact outside (working_w le)

theorem xgcdStart_registers (clean : mip.Clean) (xNormal : (mip.bigs x).Normal)
    (yNumber : mip.bigs y = Big.ofNat Y) (yOutside : ¬working y) :
    ((mip.xgcdStart x y).1 < 0 ↔ mip.value x < 0) ∧
      Registers Big.ofNat working mip (mip.xgcdStart x y).2
        (xgcdRegisters ⟨(mip.value x).natAbs, Y, 1, 0, false⟩) := by
  have unknown : Registers Big.ofNat working mip mip fun _ => none :=
    Registers.start clean (fun none => by cases none)
  have first := unknown.forget (working_w (i := 1) (by decide)) xNormal.clean
  have y' : (mip.set (.w 1) (mip.bigs x)).bigs y = Big.ofNat Y :=
    (bigs_set_of_ne _ _ (not_working yOutside (by decide))).trans yNumber
  have copies : (mip.copy x (.w 1)).copy y (.w 2) =
      (mip.set (.w 1) (mip.bigs x)).set (.w 2) (Big.ofNat Y) := by
    rw [copy_eq x _ clean, copy_eq y _ first.clean, y']
  have second := first.set (working_w (i := 2) (by decide)) (Big.ofNat_normal Y)
  have w1 : ((mip.set (.w 1) (mip.bigs x)).set (.w 2) (Big.ofNat Y)).bigs (.w 1) = mip.bigs x :=
    (bigs_set_of_ne _ _ (by decide)).trans (bigs_set_self _ _ _)
  rw [xgcdStart]
  simp only [copies]
  constructor
  · rw [exsign_lt_zero, w1, xNormal.minus_eq]
    exact decide_eq_true_iff
  · have absolute := absolute_eq (x := .w 1) (by rw [w1]; exact xNormal)
    rw [w1, ← Big.natAbs_value] at absolute
    have third := second.set (working_w (i := 1) (by decide))
      (Big.ofNat_normal (mip.bigs x).value.natAbs)
    have fourth := third.set (working_w (i := 2) (by decide)) (Big.ofNat_normal Y)
    have fifth := fourth.set (working_w (i := 3) (by decide)) (Big.ofNat_normal 1)
    have sixth := fifth.set (working_w (i := 4) (by decide)) (Big.ofNat_normal 0)
    rw [absolute, absolute_eq (third.normal (x := .w 2) rfl), third.magnitude (x := .w 2) rfl,
      convert_eq fourth.clean (by decide), show Big.ofInt 1 = Big.ofNat 1 from rfl,
      zero_eq _ fifth.clean, show Big.ofInt 0 = Big.ofNat 0 from rfl]
    apply sixth.weaken
    intro slot value holds
    unfold xgcdRegisters at holds
    split at holds
    · exact holds
    · exact holds
    · exact holds
    · exact holds
    · cases holds

theorem xgcd_loop (clean : mip.Clean) (ready : mip.ernum = none) (xNormal : (mip.bigs x).Normal)
    (yNumber : mip.bigs y = Big.ofNat Y) (yOutside : ¬working y)
    (xRoom : (mip.bigs x).len ≤ mip.nib) (room : Big.wordCount Y + 1 ≤ mip.nib) :
    let start := (mip.xgcdStart x y).2
    let out := start.xgcdLoop ((start.bigs (.w 2)).magnitude + 1) false
      { a := 0, b := 0, c := 0, d := 0, u := 0, v := 0, dplus := true, iter := 0 }
    let final := xgcdFinal ⟨(mip.value x).natAbs, Y, 1, 0, false⟩
    Registers Big.ofNat working mip out.2 (xgcdRegisters final) ∧
      decide (out.1.iter % 2 = 1) = final.odd ∧ final.w3 ≤ Y + 1 := by
  have start := (xgcdStart_registers clean xNormal yNumber yOutside).2
  simp only
  generalize (mip.xgcdStart x y).2 = mip' at start ⊢
  have second := start.magnitude (x := .w 2) rfl
  have sized : Sized mip.nib Y ⟨(mip.value x).natAbs, Y, 1, 0, false⟩ := by
    constructor
    · rw [show (mip.value x).natAbs = _ from Big.natAbs_value _]
      exact (mip.bigs x).magnitude_lt.trans_le (Nat.pow_le_pow_right Big.wordBase_pos xRoom)
    · exact Nat.le_refl Y
    · exact Nat.le_add_left 1 Y
    · exact Nat.zero_le Y
    · simp
  have head : Head mip mip' Y ⟨(mip.value x).natAbs, Y, 1, 0, false⟩ false
      { a := 0, b := 0, c := 0, d := 0, u := 0, v := 0, dplus := true, iter := 0 } :=
    ⟨start, sized, fun finished => (by cases finished), Or.inl ⟨rfl, rfl⟩⟩
  rw [second]
  rcases xgcdLoop_final ready room head (Nat.lt_succ_self Y) with ⟨holds, parity, final⟩
  exact ⟨holds, parity, final.third⟩

/-- The first cofactor, as `xgcd` delivers it: a negative number changes its sign. -/
def cofactor (x : Int) (Y : Nat) : Int :=
  if x < 0 then Y - Gm.xgcd x.natAbs Y else Gm.xgcd x.natAbs Y

theorem cofactor_eq (x : Int) {Y : Nat} {iter : Nat} {s : Int} (sign : s < 0 ↔ x < 0)
    (parity : decide (iter % 2 = 1) = (xgcdFinal ⟨x.natAbs, Y, 1, 0, false⟩).odd) :
    cofactor x Y = if (if s < 0 then iter + 1 else iter) % 2 = 1 then
      (Y : Int) - (xgcdFinal ⟨x.natAbs, Y, 1, 0, false⟩).w3
      else (xgcdFinal ⟨x.natAbs, Y, 1, 0, false⟩).w3 := by
  have result : Gm.xgcd x.natAbs Y = if (xgcdFinal ⟨x.natAbs, Y, 1, 0, false⟩).odd then
      (Y : Int) - (xgcdFinal ⟨x.natAbs, Y, 1, 0, false⟩).w3
      else (xgcdFinal ⟨x.natAbs, Y, 1, 0, false⟩).w3 := rfl
  rw [cofactor, result, ← parity]
  simp only [sign, decide_eq_true_eq]
  by_cases negative : x < 0
  · simp only [negative, if_true]
    rcases Nat.mod_two_eq_zero_or_one iter with even | odd
    · rw [if_neg (by omega), if_pos (by omega)]
    · rw [if_pos odd, if_neg (by omega)]
      ring
  · simp only [negative, if_false]

theorem invmodp_yields (clean : mip.Clean) (ready : mip.ernum = none)
    (xNormal : (mip.bigs x).Normal) (yNumber : mip.bigs y = Big.ofNat Y) (yOutside : ¬working y)
    (zOutside : ¬working z) (xRoom : (mip.bigs x).len ≤ mip.nib)
    (room : Big.wordCount Y + 1 ≤ mip.nib) :
    Yields mip (mip.invmodp x y z).1 working z (cofactor (mip.value x) Y) ∧
      (mip.invmodp x y z).2 = (Big.ofNat (Nat.gcd (mip.value x).natAbs Y)).size := by
  have sign := (xgcdStart_registers clean xNormal yNumber yOutside).1
  rcases xgcd_loop clean ready xNormal yNumber yOutside xRoom room with ⟨holds, parity, bound⟩
  have gcd : (xgcdFinal ⟨(mip.value x).natAbs, Y, 1, 0, false⟩).w1 = _ :=
    xgcdLoop_gcd (Nat.lt_succ_self Y)
  have cofactor' := cofactor_eq (mip.value x) sign parity
  rw [invmodp, xgcd, if_neg (by simp [ready])]
  generalize mip.xgcdStart x y = start at holds cofactor' ⊢
  rcases start with ⟨s, start⟩
  simp only at holds cofactor' ⊢
  generalize start.xgcdLoop _ false _ = out at holds cofactor' ⊢
  rcases out with ⟨state, mip'⟩
  simp only at holds cofactor' ⊢
  generalize (if s < 0 then state.iter + 1 else state.iter) = iter at cofactor' ⊢
  generalize xgcdFinal ⟨(mip.value x).natAbs, Y, 1, 0, false⟩ = final at holds cofactor' bound gcd
  have w3 := holds.value (x := .w 3) rfl
  have y' : mip'.bigs y = Big.ofNat Y := (holds.kept y yOutside).trans yNumber
  have difference := subtract_eq holds.clean (holds.ready ready) (x := y)
    (by rw [y']; exact Big.ofNat_normal Y) (holds.normal (x := .w 3) rfl) (.w 3) fun _ => by
      have power := Big.lt_pow_wordCount Y
      have longer : wordBase ^ Big.wordCount Y < wordBase ^ mip.nib :=
        Nat.pow_lt_pow_right Big.one_lt_wordBase room
      rw [value_ofNat y', w3, holds.nib]
      omega
  rw [value_ofNat y', w3] at difference
  have same : mip' = mip'.set (.w 3) (Big.ofInt final.w3) := by
    have number : mip'.bigs (.w 3) = Big.ofNat final.w3 := holds.holds rfl
    rw [Big.ofInt_natCast, ← number, set_bigs]
  have settled : (if iter % 2 = 1 then mip'.subtract y (.w 3) (.w 3) else mip') =
      mip'.set (.w 3) (Big.ofInt (cofactor (mip.value x) Y)) := by
    rw [cofactor']
    split
    · exact difference
    · exact same
  have delivered := holds.delivers (.w 3) (cofactor (mip.value x) Y)
  have copied := copy_yields delivered.clean delivered.result working z
  have w1 : (mip'.set (.w 3) (Big.ofInt (cofactor (mip.value x) Y))).bigs (.w 1) =
      Big.ofNat final.w1 := (bigs_set_of_ne _ _ (by decide)).trans (holds.holds rfl)
  rw [settled, if_neg (by simp)]
  refine ⟨delivered.trans (Or.inl (working_w (by decide))) copied, ?_⟩
  rw [copy_eq _ _ delivered.clean, bigs_set_of_ne _ _ (not_working zOutside (by decide)).symm, w1,
    gcd]

theorem cofactor_spec {x : Int} (nonzero : x ≠ 0) (positive : 0 < Y) :
    0 ≤ cofactor x Y ∧ cofactor x Y ≤ Y ∧
      ((x * cofactor x Y : Int) : ZMod Y) = Nat.gcd x.natAbs Y := by
  rcases Gm.xgcd_spec (Int.natAbs_pos.mpr nonzero) positive with ⟨low, high, cast⟩
  rw [cofactor]
  split
  · rename_i negative
    refine ⟨by omega, by omega, ?_⟩
    have magnitude : (x : ZMod Y) = -(x.natAbs : ZMod Y) := by
      rw [← Int.cast_natCast x.natAbs, Int.ofNat_natAbs_of_nonpos negative.le, Int.cast_neg, neg_neg]
    push_cast
    rw [magnitude, ZMod.natCast_self, ← cast]
    ring
  · rename_i notNegative
    refine ⟨low, high, ?_⟩
    have magnitude : (x : ZMod Y) = x.natAbs := by
      rw [← Int.cast_natCast x.natAbs, Int.natAbs_of_nonneg (Int.not_lt.mp notNegative)]
    push_cast
    rw [magnitude, ← cast]

/-- `invmodp` with Lehmer's shortcut delivers the cofactor that plain division with remainder
leads to, which is in range and takes the number to the greatest common divisor. -/
theorem invmodp_exact (clean : mip.Clean) (ready : mip.ernum = none)
    (xNormal : (mip.bigs x).Normal) (nonzero : mip.value x ≠ 0)
    (yNumber : mip.bigs y = Big.ofNat Y) (positive : 0 < Y) (yOutside : ¬working y)
    (zOutside : ¬working z) (xRoom : (mip.bigs x).len ≤ mip.nib)
    (room : Big.wordCount Y + 1 ≤ mip.nib) :
    Yields mip (mip.invmodp x y z).1 working z (cofactor (mip.value x) Y) ∧
      (mip.invmodp x y z).2 = (Big.ofNat (Nat.gcd (mip.value x).natAbs Y)).size ∧
      0 ≤ cofactor (mip.value x) Y ∧ cofactor (mip.value x) Y ≤ Y ∧
      ((mip.value x * cofactor (mip.value x) Y : Int) : ZMod Y) =
        Nat.gcd (mip.value x).natAbs Y := by
  rcases invmodp_yields clean ready xNormal yNumber yOutside zOutside xRoom room with
    ⟨yields, gcd⟩
  exact ⟨yields, gcd, cofactor_spec nonzero positive⟩

theorem invmodp_exact_long :
    let mip := ((mirsys 17).set (.caller 0) (Big.ofInt (-(2 ^ 200 + 3)))).set (.caller 1)
      (Big.ofNat (2 ^ 256 - 189))
    let out := mip.invmodp (.caller 0) (.caller 1) (.caller 0)
    Yields mip out.1 working (.caller 0) (cofactor (mip.value (.caller 0)) (2 ^ 256 - 189)) ∧
      out.2 = (Big.ofNat (Nat.gcd (mip.value (.caller 0)).natAbs (2 ^ 256 - 189))).size ∧
      0 ≤ cofactor (mip.value (.caller 0)) (2 ^ 256 - 189) ∧
      cofactor (mip.value (.caller 0)) (2 ^ 256 - 189) ≤ (2 ^ 256 - 189 : Nat) ∧
      ((mip.value (.caller 0) * cofactor (mip.value (.caller 0)) (2 ^ 256 - 189) : Int) :
        ZMod (2 ^ 256 - 189)) =
        Nat.gcd (mip.value (.caller 0)).natAbs (2 ^ 256 - 189) := by
  intro mip
  have first : mip.bigs (.caller 0) = Big.ofInt (-(2 ^ 200 + 3)) := rfl
  have second : mip.bigs (.caller 1) = Big.ofNat (2 ^ 256 - 189) := rfl
  have clean : mip.Clean := ((mirsys_clean 17).set (Big.ofInt_normal (-(2 ^ 200 + 3))).clean).set
    (Big.ofNat_normal (2 ^ 256 - 189)).clean
  have value : mip.value (.caller 0) = -(2 ^ 200 + 3) := Big.ofInt_value _
  have xLength : (mip.bigs (.caller 0)).len ≤ 17 := by
    rw [first]
    exact (Big.ofInt_normal _).len_le (by rw [Big.ofInt_magnitude]; norm_num [wordBase])
  have yLength : Big.wordCount (2 ^ 256 - 189) ≤ 16 := wordCount_le (by norm_num [wordBase])
  exact invmodp_exact clean rfl (by rw [first]; exact Big.ofInt_normal _)
    (by rw [value]; norm_num) second (by norm_num) (fun inside => inside) (fun inside => inside) xLength
    (Nat.succ_le_succ yLength)

end Mip

end Penglai.Miracl

import Penglai.Foundation.Buffer
import Penglai.Miracl.Instance
import Penglai.Miracl.Rows

namespace Penglai.Miracl

/-! # Octet strings

`bytes_to_big` and `big_to_bytes` of `mrarth1.c`, between numbers and strings of bytes
with the most significant byte first. -/

/-! ## Reading -/

def pushBytes (wrd : UInt32) (bytes : List UInt8) : UInt32 :=
  bytes.foldl (fun wrd byte => wrd <<< 8 ||| byte.toUInt32) wrd

def readWords (ptr : List UInt8) (r n : Nat) (w : Nat → UInt32) (wrd : UInt32) :
    (Nat → UInt32) × UInt32 :=
  forRange 0 n
    (sweepStep (n - 1 - ·) fun _ k wrd =>
      let wrd := pushBytes wrd ((ptr.drop (r + 4 * k)).take 4)
      (wrd, wrd)) (w, wrd)

theorem toNat_pushByte (wrd : UInt32) (byte : UInt8) :
    (wrd <<< 8 ||| byte.toUInt32).toNat = (wrd.toNat * 256 + byte.toNat) % wordBase := by
  have byteBound := byte.toNat_lt
  have places : (8 : UInt32).toNat % 32 = 8 := rfl
  have shifted : (wrd <<< 8).toNat = wrd.toNat % 2 ^ 24 * 2 ^ 8 := by
    rw [UInt32.toNat_shiftLeft, places, Nat.shiftLeft_eq]
    omega
  rw [UInt32.toNat_or, shifted, UInt8.toNat_toUInt32, Nat.mul_comm,
    ← Nat.two_pow_add_eq_or_of_lt byteBound, wordBase]
  omega

theorem toNat_pushBytes (wrd : UInt32) (bytes : List UInt8) :
    (pushBytes wrd bytes).toNat = (wrd.toNat * 256 ^ bytes.length + beNat bytes) % wordBase := by
  induction bytes using List.reverseRecOn with
  | nil => simp [pushBytes, Nat.mod_eq_of_lt (Big.word_lt wrd)]
  | append_singleton bytes byte induction =>
      have step : pushBytes wrd (bytes ++ [byte]) =
          (pushBytes wrd bytes) <<< 8 ||| byte.toUInt32 := by
        simp [pushBytes]
      have shifted : wrd.toNat * 256 ^ (bytes.length + 1) + (beNat bytes * 256 + byte.toNat) =
          (wrd.toNat * 256 ^ bytes.length + beNat bytes) * 256 + byte.toNat := by
        rw [pow_succ]
        ring
      rw [step, toNat_pushByte, induction, beNat_concat, List.length_append, List.length_singleton,
        shifted, Nat.add_mod, Nat.mod_mul_mod, ← Nat.add_mod]

theorem toNat_pushBytes_of_full (wrd : UInt32) {bytes : List UInt8} (full : bytes.length = 4) :
    (pushBytes wrd bytes).toNat = beNat bytes := by
  have bound := beNat_lt bytes
  rw [full] at bound
  rw [toNat_pushBytes, full, wordBase]
  omega

theorem toNat_pushBytes_start {bytes : List UInt8} (few : bytes.length < 4) :
    (pushBytes 0 bytes).toNat = beNat bytes := by
  have bound := beNat_lt bytes
  have small : 256 ^ bytes.length ≤ 256 ^ 4 := Nat.pow_le_pow_right (by decide) few.le
  rw [toNat_pushBytes, UInt32.toNat_zero, zero_mul, zero_add, Nat.mod_eq_of_lt]
  exact bound.trans_le small

/-- The string is read from the front, and the number filled from the top. -/
structure WordsRead (ptr : List UInt8) (r n top k : Nat) (state : (Nat → UInt32) × UInt32)
    (w : Nat → UInt32) : Prop where
  total : Big.below (fun i => state.1 (n - k + i)) (top + k) = beNat (ptr.take (r + 4 * k))
  behind : ∀ i, n ≤ i → state.1 i = w i

theorem wordsRead_step {ptr : List UInt8} {r n top k : Nat} {w : Nat → UInt32}
    (size : ptr.length = r + 4 * n) (inside : k < n) {state : (Nat → UInt32) × UInt32}
    (before : WordsRead ptr r n top k state w) :
    WordsRead ptr r n top (k + 1)
      (sweepStep (n - 1 - ·) (fun _ k wrd =>
        let wrd := pushBytes wrd ((ptr.drop (r + 4 * k)).take 4)
        (wrd, wrd)) k state) w := by
  have chunk : ((ptr.drop (r + 4 * k)).take 4).length = 4 := by
    rw [List.length_take, List.length_drop]
    omega
  have word := toNat_pushBytes_of_full state.2 chunk
  have place : n - (k + 1) = n - 1 - k ∧ n - k = n - 1 - k + 1 := by omega
  constructor
  · have parts : ptr.take (r + 4 * (k + 1)) =
        ptr.take (r + 4 * k) ++ (ptr.drop (r + 4 * k)).take 4 := by
      rw [Nat.mul_succ, ← Nat.add_assoc, List.take_add]
    have upper : Big.below (fun i => Function.update state.1 (n - 1 - k)
        (pushBytes state.2 ((ptr.drop (r + 4 * k)).take 4)) (n - 1 - k + (1 + i))) (top + k) =
        Big.below (fun i => state.1 (n - k + i)) (top + k) :=
      Big.below_congr fun i _ => by
        rw [Function.update_of_ne (by omega), place.2, Nat.add_assoc]
    rw [parts, beNat_append, chunk, ← before.total, ← upper, ← word, place.1, sweepStep,
      ← Nat.add_assoc, Nat.add_comm (top + k), Big.below_append, Big.below_succ]
    simp only [Big.below_zero, pow_zero, mul_one, zero_add, pow_one, Nat.add_zero,
      Function.update_self]
    rw [Nat.add_comm, Nat.mul_comm]
    rfl
  · intro i above
    exact (Function.update_of_ne (by omega : i ≠ n - 1 - k) _ _).trans (before.behind i above)

theorem readWords_spec {ptr : List UInt8} {r n top : Nat} {w : Nat → UInt32} {wrd : UInt32}
    (size : ptr.length = r + 4 * n)
    (start : Big.below (fun i => w (n + i)) top = beNat (ptr.take r)) :
    Big.below (readWords ptr r n w wrd).1 (top + n) = beNat ptr ∧
      ∀ i, n ≤ i → (readWords ptr r n w wrd).1 i = w i := by
  have loop : WordsRead ptr r n top n (readWords ptr r n w wrd) w := by
    apply forRange_invariant fun k state => WordsRead ptr r n top k state w
    · exact ⟨start, fun _ _ => rfl⟩
    · intro k inside state before
      rw [Nat.zero_add]
      exact wordsRead_step size inside before
  have total := loop.total
  rw [← size, List.take_length, Nat.sub_self] at total
  exact ⟨by simpa using total, loop.behind⟩

namespace Mip

def readBig (ptr : List UInt8) (x : Slot) (mip : Mip) : Mip :=
  let n := ptr.length / 4
  let r := ptr.length % 4
  let wrd := pushBytes 0 (ptr.take r)
  let len := if r ≠ 0 then n + 1 else n
  let mip := mip.set x { mip.bigs x with len := len }
  if len > mip.nib ∧ mip.check then mip.berror .overflow
  else
    let w := (mip.bigs x).w
    let w := if r ≠ 0 then Function.update w n wrd else w
    (mip.set x { mip.bigs x with w := (readWords ptr r n w wrd).1 }).mrLzero x

def bytesToBig (bytes : List UInt8) (x : Slot) (mip : Mip) : Mip :=
  if mip.ernum.isSome then mip
  else
    let mip := mip.zero x
    -- remove leading zeros
    let ptr := bytes.dropWhile (· = 0)
    if ptr = [] then mip else mip.readBig ptr x

theorem beNat_dropWhile (bytes : List UInt8) : beNat (bytes.dropWhile (· = 0)) = beNat bytes := by
  induction bytes with
  | nil => rfl
  | cons byte bytes induction =>
      rw [List.dropWhile_cons]
      split
      · rename_i zero
        rw [induction, beNat_cons, of_decide_eq_true zero, UInt8.toNat_zero, zero_mul, zero_add]
      · rfl

theorem wordBase_pow (i : Nat) : wordBase ^ i = 256 ^ (4 * i) := by
  rw [pow_mul]
  rfl

theorem wordCount_beNat {byte : UInt8} {bytes : List UInt8} (leading : byte ≠ 0) :
    Big.wordCount (beNat (byte :: bytes)) = bytes.length / 4 + 1 := by
  have positive : 1 ≤ byte.toNat :=
    Nat.pos_of_ne_zero fun zero => leading (UInt8.toNat_inj.mp zero)
  apply Big.wordCount_eq
  · rw [wordBase_pow, beNat_cons]
    calc 256 ^ (4 * (bytes.length / 4))
        ≤ 256 ^ bytes.length := Nat.pow_le_pow_right (by decide) (by omega)
      _ ≤ byte.toNat * 256 ^ bytes.length := Nat.le_mul_of_pos_left _ positive
      _ ≤ byte.toNat * 256 ^ bytes.length + beNat bytes := Nat.le_add_right _ _
  · rw [wordBase_pow]
    apply (beNat_lt (byte :: bytes)).trans_le
    apply Nat.pow_le_pow_right (by decide)
    rw [List.length_cons]
    omega

theorem readWords_eq {ptr : List UInt8} {w : Nat → UInt32} (empty : ∀ i, w i = 0) {len : Nat}
    (length : len = if ptr.length % 4 ≠ 0 then ptr.length / 4 + 1 else ptr.length / 4) :
    Big.below (readWords ptr (ptr.length % 4) (ptr.length / 4)
        (if ptr.length % 4 ≠ 0 then
          Function.update w (ptr.length / 4) (pushBytes 0 (ptr.take (ptr.length % 4)))
        else w) (pushBytes 0 (ptr.take (ptr.length % 4)))).1 len = beNat ptr ∧
      ∀ i, len ≤ i → (readWords ptr (ptr.length % 4) (ptr.length / 4)
        (if ptr.length % 4 ≠ 0 then
          Function.update w (ptr.length / 4) (pushBytes 0 (ptr.take (ptr.length % 4)))
        else w) (pushBytes 0 (ptr.take (ptr.length % 4)))).1 i = 0 := by
  have size : ptr.length = ptr.length % 4 + 4 * (ptr.length / 4) := by omega
  have word := @toNat_pushBytes_start (ptr.take (ptr.length % 4)) (by
    rw [List.length_take]
    omega)
  generalize pushBytes 0 (ptr.take (ptr.length % 4)) = wrd at word ⊢
  generalize ptr.length / 4 = n at size length ⊢
  split at length
  · rename_i incomplete
    have start : Big.below (fun i => Function.update w n wrd (n + i)) 1 =
        beNat (ptr.take (ptr.length % 4)) := by
      rw [← word, Big.below_succ]
      simp
    rcases @readWords_spec ptr _ n 1 _ wrd size start with ⟨total, behind⟩
    rw [if_pos incomplete, length, Nat.add_comm n]
    refine ⟨total, fun i above => ?_⟩
    rw [behind i (by omega), Function.update_of_ne (by omega), empty]
  · rename_i complete
    have start : Big.below (fun i => w (n + i)) 0 = beNat (ptr.take (ptr.length % 4)) := by
      rw [not_not.mp complete]
      rfl
    rcases @readWords_spec ptr _ n 0 w wrd size start with ⟨total, behind⟩
    rw [if_neg complete, length]
    rw [Nat.zero_add] at total
    exact ⟨total, fun i above => (behind i above).trans (empty i)⟩

theorem wordCount_eq_length {byte : UInt8} {bytes : List UInt8} (leading : byte ≠ 0) :
    (if (byte :: bytes).length % 4 ≠ 0 then (byte :: bytes).length / 4 + 1
      else (byte :: bytes).length / 4) = Big.wordCount (beNat (byte :: bytes)) := by
  rw [wordCount_beNat leading, List.length_cons]
  split
  · omega
  · omega

theorem head_dropWhile_ne {byte : UInt8} {rest : List UInt8} : ∀ {bytes : List UInt8},
    bytes.dropWhile (· = 0) = byte :: rest → byte ≠ 0
  | [], split => by cases split
  | first :: bytes, split => by
      rw [List.dropWhile_cons] at split
      split at split
      · exact head_dropWhile_ne split
      · rename_i nonzero
        cases split
        simpa using nonzero

theorem readBig_eq {mip : Mip} (clean : mip.Clean) (x : Slot) {byte : UInt8} {rest : List UInt8}
    (leading : byte ≠ 0) :
    (mip.zero x).readBig (byte :: rest) x =
      if mip.check = true ∧ wordBase ^ mip.nib ≤ beNat (byte :: rest) then
        (mip.set x { Big.ofInt 0 with len := Big.wordCount (beNat (byte :: rest)) }).berror .overflow
      else mip.set x (Big.ofNat (beNat (byte :: rest))) := by
  have length := @wordCount_eq_length byte rest leading
  have empty : ∀ i, (Big.ofInt 0).w i = 0 := fun i =>
    (Big.ofInt_normal 0).clean i (Nat.zero_le i)
  rcases readWords_eq empty length.symm with ⟨total, behind⟩
  have condition : Big.wordCount (beNat (byte :: rest)) > mip.nib ∧ mip.check = true ↔
      mip.check = true ∧ wordBase ^ mip.nib ≤ beNat (byte :: rest) := by
    rw [and_comm, gt_iff_lt, Big.lt_wordCount]
  simp only [readBig, zero_eq x clean, bigs_set_self, set_set, length, set_nib, set_check,
    condition]
  generalize (readWords _ _ _ _ _).1 = w at total behind ⊢
  generalize Big.wordCount (beNat (byte :: rest)) = len at total behind ⊢
  split
  · rfl
  · have number : Big.lzero ⟨(Big.ofInt 0).minus, len, w⟩ = Big.ofNat (beNat (byte :: rest)) :=
      Big.lzero_words behind total
    rw [mrLzero, bigs_set_self, set_set, number]

/-- A string stands for the number of its bytes, most significant first, however long it is
and with any number of leading zeros. -/
theorem bytesToBig_eq {mip : Mip} (clean : mip.Clean) (ready : mip.ernum = none)
    (bytes : List UInt8) (x : Slot) :
    if mip.check = true ∧ wordBase ^ mip.nib ≤ beNat bytes then
      (mip.bytesToBig bytes x).ernum = some .overflow
    else mip.bytesToBig bytes x = mip.set x (Big.ofNat (beNat bytes)) := by
  have result : mip.bytesToBig bytes x =
      if bytes.dropWhile (· = 0) = [] then mip.zero x
      else (mip.zero x).readBig (bytes.dropWhile (· = 0)) x := by
    rw [bytesToBig, if_neg (by simp [ready])]
  cases significant : bytes.dropWhile (· = 0) with
  | nil =>
      have zero : beNat bytes = 0 := by rw [← beNat_dropWhile, significant, beNat_nil]
      have power : 0 < wordBase ^ mip.nib := Nat.pow_pos Big.wordBase_pos
      rw [zero, if_neg fun tooLong => Nat.not_le.mpr power tooLong.2, result, if_pos significant,
        zero_eq x clean]
      rfl
  | cons byte rest =>
      have number : beNat bytes = beNat (byte :: rest) := by rw [← significant, beNat_dropWhile]
      have leading := head_dropWhile_ne significant
      rw [result, significant, if_neg (List.cons_ne_nil byte rest), number,
        readBig_eq clean x leading]
      split
      · rfl
      · rfl

end Mip

/-! ## Writing -/

def significantBytes : (fuel : Nat) → (wrd : UInt32) → Nat
  | 0, _ => 0
  | fuel + 1, wrd => if wrd ≠ 0 then significantBytes fuel (wrd >>> 8) + 1 else 0

def storeBytes (offset : Nat) : (count : Nat) → (wrd : UInt32) → Buffer → Buffer
  | 0, _, ptr => ptr
  | count + 1, wrd, ptr =>
      storeBytes offset count (wrd >>> 8) (ptr.set (offset + count) (lowByte wrd))

def clearBytes (count : Nat) (ptr : Buffer) : Buffer :=
  forRange 0 count (fun i ptr => ptr.set i 0) ptr

def storeWords (w : Nat → UInt32) (offset n count : Nat) (ptr : Buffer) : Buffer :=
  forRange 0 count (fun k ptr => storeBytes (offset + 4 * k) 4 (w (n - k)) ptr) ptr

def octets (magnitude : Nat) : Nat := (Nat.digits 256 magnitude).length

theorem lt_pow_octets (magnitude : Nat) : magnitude < 256 ^ octets magnitude :=
  Nat.lt_base_pow_length_digits (by decide)

@[simp] theorem octets_zero : octets 0 = 0 := by simp [octets]

theorem octets_div {magnitude : Nat} (nonzero : magnitude ≠ 0) :
    octets magnitude = octets (magnitude / 256) + 1 := by
  rw [octets, Nat.digits_def' (by decide) (Nat.pos_of_ne_zero nonzero), List.length_cons, octets]

theorem octets_div_pow {magnitude : Nat} : ∀ {count : Nat}, magnitude / 256 ^ count ≠ 0 →
    octets magnitude = count + octets (magnitude / 256 ^ count)
  | 0, _ => by simp
  | count + 1, remains => by
      rw [pow_succ, ← Nat.div_div_eq_div_mul] at remains ⊢
      have before : magnitude / 256 ^ count ≠ 0 := by
        intro zero
        exact remains (by rw [zero])
      rw [octets_div_pow before, octets_div before]
      omega

theorem toNat_shiftRight_byte (wrd : UInt32) : (wrd >>> 8).toNat = wrd.toNat / 256 := by
  rw [UInt32.toNat_shiftRight, show (8 : UInt32).toNat % 32 = 8 from rfl,
    Nat.shiftRight_eq_div_pow]

theorem significantBytes_eq : ∀ {fuel : Nat} {wrd : UInt32}, wrd.toNat < 256 ^ fuel →
    significantBytes fuel wrd = octets wrd.toNat
  | 0, wrd, bound => by
      rw [pow_zero, Nat.lt_one_iff] at bound
      rw [bound, octets_zero, significantBytes]
  | fuel + 1, wrd, bound => by
      rw [significantBytes]
      split
      · rename_i nonzero
        have remains : wrd.toNat ≠ 0 := fun zero => nonzero (UInt32.toNat_inj.mp zero)
        have shifted : (wrd >>> 8).toNat < 256 ^ fuel := by
          rw [toNat_shiftRight_byte]
          rw [pow_succ] at bound
          omega
        rw [significantBytes_eq shifted, toNat_shiftRight_byte, octets_div remains]
      · rename_i zero
        rw [not_not.mp zero, UInt32.toNat_zero, octets_zero]

theorem toNat_lowByte (wrd : UInt32) : lowByte wrd = UInt8.ofNat wrd.toNat := by
  apply UInt8.toNat_inj.mp
  have low : wrd.toNat % 256 &&& 255 = wrd.toNat % 256 % 256 :=
    Nat.and_two_pow_sub_one_eq_mod _ 8
  simp [lowByte, low]

theorem storeBytes_eq (offset : Nat) : ∀ (count : Nat) (wrd : UInt32) (ptr : Buffer),
    storeBytes offset count wrd ptr = ptr.copy offset (beBytes count wrd.toNat)
  | 0, _, ptr => by rw [storeBytes, beBytes, Buffer.copy_nil]
  | count + 1, wrd, ptr => by
      have front := beBytes_length count (wrd >>> 8).toNat
      rw [storeBytes, storeBytes_eq, Buffer.set_eq_copy, beBytes, ← toNat_shiftRight_byte,
        ← toNat_lowByte, ← Buffer.copy_prepend, front]

theorem clearBytes_eq (ptr : Buffer) : ∀ count : Nat,
    clearBytes count ptr = ptr.copy 0 (List.replicate count 0)
  | 0 => by rw [clearBytes, forRange_zero, List.replicate_zero, Buffer.copy_nil]
  | count + 1 => by
      have before := clearBytes_eq ptr count
      rw [clearBytes] at before
      rw [clearBytes, forRange_succ, before, Buffer.set_eq_copy, List.replicate_succ',
        ← Buffer.copy_append, List.length_replicate]

theorem storeWords_eq {w : Nat → UInt32} {magnitude : Nat}
    (digits : ∀ i, (w i).toNat = magnitude / wordBase ^ i % wordBase) (offset r rounds : Nat)
    (ptr : Buffer) : ∀ k ≤ rounds,
    storeWords w (offset + r) (rounds - 1) k
        (ptr.copy offset (beBytes r (magnitude / wordBase ^ rounds))) =
      ptr.copy offset (beBytes (r + 4 * k) (magnitude / wordBase ^ (rounds - k)))
  | 0, _ => rfl
  | k + 1, bound => by
      have before := storeWords_eq digits offset r rounds ptr k (by omega)
      rw [storeWords] at before
      have place : rounds - 1 - k = rounds - (k + 1) ∧ rounds - k = rounds - (k + 1) + 1 := by omega
      have front := beBytes_length (r + 4 * k) (magnitude / wordBase ^ (rounds - k))
      have word : beBytes 4 (w (rounds - 1 - k)).toNat =
          beBytes 4 (magnitude / wordBase ^ (rounds - (k + 1))) := by
        rw [digits, place.1]
        exact beBytes_mod 4 _
      have split := beBytes_add (r + 4 * k) 4 (magnitude / wordBase ^ (rounds - (k + 1)))
      have higher : magnitude / wordBase ^ (rounds - (k + 1)) / 256 ^ 4 =
          magnitude / wordBase ^ (rounds - k) := by
        rw [place.2, pow_succ, Nat.div_div_eq_div_mul]
        rfl
      rw [storeWords, forRange_succ, before, storeBytes_eq, Nat.zero_add, word, Nat.mul_succ,
        ← Nat.add_assoc, split, higher, ← Buffer.copy_append, front, Nat.add_assoc offset]

namespace Mip

def bigToBytes (max : Int) (x : Slot) (ptr : Buffer) (justify : Bool) (mip : Mip) :
    Mip × Buffer × Int :=
  if mip.ernum.isSome ∨ max < 0 then (mip, ptr, 0)
  else if max = 0 ∧ justify then (mip, ptr, 0)
  else if (mip.bigs x).size = 0 then
    if justify then (mip, clearBytes max.toNat ptr, max) else (mip, ptr, 0)
  else
    let mip := mip.mrLzero x
    let big := mip.bigs x
    let n := big.len - 1
    let bytes := significantBytes 4 (big.w n)
    let len := n * 4 + bytes
    let r := bytes % 4
    if 0 < max ∧ len > max then (mip.berror .tooBig, ptr, 0)
    else
      let start := if justify then (max - len).toNat else 0
      let ptr := clearBytes start ptr
      let (ptr, n) :=
        if r ≠ 0 then (storeBytes start r (big.w n) ptr, n - 1) else (ptr, n)
      let ptr := storeWords big.w (start + r) n ((len - r) / 4) ptr
      (mip, ptr, if justify then max else len)

theorem storeBig_eq {w : Nat → UInt32} {magnitude n : Nat}
    (digits : ∀ i, (w i).toNat = magnitude / wordBase ^ i % wordBase)
    (low : wordBase ^ n ≤ magnitude) (high : magnitude < wordBase ^ (n + 1)) (start : Nat)
    (ptr : Buffer) :
    n * 4 + significantBytes 4 (w n) = octets magnitude ∧
      (let r := significantBytes 4 (w n) % 4
       let (ptr, n) := if r ≠ 0 then (storeBytes start r (w n) ptr, n - 1) else (ptr, n)
       storeWords w (start + r) n ((octets magnitude - r) / 4) ptr) =
        ptr.copy start (beBytes (octets magnitude) magnitude) := by
  have positive : 0 < wordBase ^ n := Nat.pow_pos Big.wordBase_pos
  have topBound : magnitude / wordBase ^ n < wordBase :=
    Nat.div_lt_of_lt_mul (by rwa [← pow_succ])
  have top : (w n).toNat = magnitude / wordBase ^ n := by
    rw [digits, Nat.mod_eq_of_lt topBound]
  have remains : magnitude / 256 ^ (4 * n) ≠ 0 := by
    rw [← wordBase_pow]
    exact Nat.ne_of_gt (Nat.div_pos low positive)
  have bytes : significantBytes 4 (w n) = octets (magnitude / wordBase ^ n) := by
    rw [significantBytes_eq (w n).toNat_lt, top]
  have length := octets_div_pow remains
  rw [← wordBase_pow, ← bytes] at length
  have atMost : significantBytes 4 (w n) ≤ 4 := by
    rw [bytes]
    exact (Nat.digits_length_le_iff (by decide) _).mpr topBound
  have some : significantBytes 4 (w n) ≠ 0 := by
    rw [bytes, octets_div (Nat.ne_of_gt (Nat.div_pos low positive))]
    exact Nat.succ_ne_zero _
  rw [Nat.mul_comm n, ← length]
  refine ⟨rfl, ?_⟩
  have stored := storeWords_eq digits start
  simp only [storeBytes_eq, top]
  generalize significantBytes 4 (w n) = count at *
  generalize octets magnitude = len at *
  split
  · have whole : count % 4 = count ∧ (len - count) / 4 = n ∧ len = count + 4 * n := by omega
    have result := stored count n ptr n (Nat.le_refl n)
    rw [Nat.sub_self, pow_zero, Nat.div_one, ← whole.2.2] at result
    simpa only [whole.1, whole.2.1] using result
  · have whole : count % 4 = 0 ∧ len / 4 = n + 1 ∧ len = 0 + 4 * (n + 1) := by omega
    have result := stored 0 (n + 1) ptr (n + 1) (Nat.le_refl _)
    rw [Nat.sub_self, pow_zero, Nat.div_one, ← whole.2.2, beBytes, Buffer.copy_nil,
      Nat.add_sub_cancel] at result
    simpa only [whole.1, whole.2.1, Nat.sub_zero] using result

theorem clearBytes_copy {magnitude len : Nat} (fits : octets magnitude ≤ len) (ptr : Buffer) :
    (clearBytes (len - octets magnitude) ptr).copy (len - octets magnitude)
        (beBytes (octets magnitude) magnitude) = ptr.copy 0 (beBytes len magnitude) := by
  have width := List.length_replicate (n := len - octets magnitude) (a := (0 : UInt8))
  have zeros := beBytes_add (len - octets magnitude) (octets magnitude) magnitude
  rw [Nat.div_eq_of_lt (lt_pow_octets magnitude), beBytes_zero, Nat.sub_add_cancel fits] at zeros
  rw [clearBytes_eq, zeros, ← Buffer.copy_append, width, Nat.zero_add]

/-- The bytes of the magnitude are written, at the end of the room of `max` bytes if they are
justified, or it is found that they need more room than that. -/
theorem bigToBytes_eq {mip : Mip} (ready : mip.ernum = none) {x : Slot}
    (normal : (mip.bigs x).Normal) (max : Int) (ptr : Buffer) (justify : Bool) :
    mip.bigToBytes max x ptr justify =
      if max < 0 ∨ max = 0 ∧ justify then (mip, ptr, 0)
      else if 0 < max ∧ max < octets (mip.bigs x).magnitude then (mip.berror .tooBig, ptr, 0)
      else if justify then
        (mip, ptr.copy 0 (beBytes max.toNat (mip.bigs x).magnitude), max)
      else
        (mip, ptr.copy 0 (beBytes (octets (mip.bigs x).magnitude) (mip.bigs x).magnitude),
          octets (mip.bigs x).magnitude) := by
  have digits := normal.toNat_word
  rw [bigToBytes, ready, Option.isSome_none, mrLzero_eq_self normal]
  simp only [Bool.false_eq_true, false_or, normal.size_eq_zero]
  by_cases negative : max < 0
  · rw [if_pos negative, if_pos (Or.inl negative)]
  by_cases nothing : max = 0 ∧ justify = true
  · rw [if_neg negative, if_pos nothing, if_pos (Or.inr nothing)]
  rw [if_neg negative, if_neg nothing, if_neg (not_or.mpr ⟨negative, nothing⟩)]
  cases length : (mip.bigs x).len with
  | zero =>
      have zero := normal.magnitude_eq_zero.mpr length
      have fits : ¬(0 < max ∧ max < ((0 : Nat) : Int)) := by omega
      rw [if_pos zero, zero, octets_zero, if_neg fits, beBytes, beBytes_zero, clearBytes_eq,
        Buffer.copy_nil]
      rfl
  | succ n =>
      have low := normal.pow_le length
      have high := (mip.bigs x).magnitude_lt
      have power : 0 < wordBase ^ n := Nat.pow_pos Big.wordBase_pos
      rw [length] at high
      rw [if_neg (by omega)]
      simp only [Nat.add_sub_cancel, (storeBig_eq digits low high 0 ptr).1]
      generalize (mip.bigs x).magnitude = magnitude at *
      by_cases tooLong : 0 < max ∧ max < octets magnitude
      · rw [if_pos tooLong, if_pos tooLong]
      · rw [if_neg tooLong, if_neg tooLong]
        have stored := fun start ptr => (storeBig_eq digits low high start ptr).2
        simp only at stored
        cases justify with
        | true =>
            have room : (max - octets magnitude).toNat = max.toNat - octets magnitude := by omega
            have fits : octets magnitude ≤ max.toNat := by
              by_contra beyond
              exact tooLong (by simp only [and_true] at nothing; omega)
            simp only [if_true, room, stored, clearBytes_copy fits]
        | false =>
            have clear : clearBytes 0 ptr = ptr := rfl
            simp only [Bool.false_eq_true, if_false, stored, clear]

/-! ## Both ways -/

/-- A number that is written out, with or without justification, is read back. -/
theorem bytesToBig_bigToBytes {mip : Mip} (clean : mip.Clean) (ready : mip.ernum = none)
    {x : Slot} (normal : (mip.bigs x).Normal)
    (room : (mip.bigs x).len ≤ mip.nib ∨ mip.check = false) {max : Int} {justify : Bool}
    (accepted : octets (mip.bigs x).magnitude ≤ max ∧ 0 < max ∨ max = 0 ∧ justify = false)
    (ptr : Buffer) (y : Slot) :
    let (mip', ptr, count) := mip.bigToBytes max x ptr justify
    mip'.bytesToBig (ptr.bytes 0 count.toNat) y =
      mip.set y (Big.ofNat (mip.bigs x).magnitude) := by
  have fits : ¬(mip.check = true ∧ wordBase ^ mip.nib ≤ (mip.bigs x).magnitude) := by
    intro ⟨check, low⟩
    rcases room with roomy | unchecked
    · exact Nat.not_lt.mpr low ((mip.bigs x).magnitude_lt.trans_le
        (Nat.pow_le_pow_right Big.wordBase_pos roomy))
    · rw [unchecked] at check
      cases check
  have bound := lt_pow_octets (mip.bigs x).magnitude
  have readBack : ∀ len, octets (mip.bigs x).magnitude ≤ len →
      mip.bytesToBig ((ptr.copy 0 (beBytes len (mip.bigs x).magnitude)).bytes 0 len) y =
        mip.set y (Big.ofNat (mip.bigs x).magnitude) := by
    intro len enough
    have written := Buffer.bytes_copy_self ptr (beBytes len (mip.bigs x).magnitude)
    rw [beBytes_length] at written
    have read := bytesToBig_eq clean ready (beBytes len (mip.bigs x).magnitude) y
    rw [beNat_beBytes (bound.trans_le (Nat.pow_le_pow_right (by decide) enough)), if_neg fits]
      at read
    rw [written, read]
  have proper : ¬(max < 0 ∨ max = 0 ∧ justify = true) := by
    rcases accepted with ⟨-, positive⟩ | ⟨zero, plain⟩
    · omega
    · rw [zero, plain]
      decide
  rw [bigToBytes_eq ready normal, if_neg proper, if_neg (by omega)]
  cases justify with
  | true => exact readBack max.toNat (by simp at accepted; omega)
  | false => exact readBack _ (Nat.le_refl _)

/-- A string that is read is written back in its own length, leading zeros and all. -/
theorem bigToBytes_bytesToBig {mip : Mip} (clean : mip.Clean) (ready : mip.ernum = none)
    {bytes : List UInt8} (accepted : beNat bytes < wordBase ^ mip.nib ∨ mip.check = false)
    (x : Slot) (ptr : Buffer) :
    ((mip.bytesToBig bytes x).bigToBytes bytes.length x ptr true).2 =
      (ptr.copy 0 bytes, (bytes.length : Int)) := by
  have fits : ¬(mip.check = true ∧ wordBase ^ mip.nib ≤ beNat bytes) := by
    intro ⟨check, low⟩
    rcases accepted with small | unchecked
    · exact Nat.not_lt.mpr low small
    · rw [unchecked] at check
      cases check
  have read := bytesToBig_eq clean ready bytes x
  rw [if_neg fits] at read
  have number : (mip.set x (Big.ofNat (beNat bytes))).bigs x = Big.ofNat (beNat bytes) :=
    bigs_set_self mip x _
  have normal : ((mip.set x (Big.ofNat (beNat bytes))).bigs x).Normal := by
    rw [number]
    exact Big.ofNat_normal (beNat bytes)
  have short : octets (beNat bytes) ≤ bytes.length :=
    (Nat.digits_length_le_iff (by decide) _).mpr (beNat_lt bytes)
  have written := @bigToBytes_eq (mip.set x (Big.ofNat (beNat bytes))) ready x normal
    bytes.length ptr true
  rw [read, written]
  cases bytes with
  | nil =>
      rw [if_pos (Or.inr ⟨rfl, rfl⟩)]
      rfl
  | cons byte rest =>
      have positive : 0 < (byte :: rest).length := Nat.succ_pos _
      rw [number, Big.magnitude_ofNat, if_neg (by omega), if_neg (by omega), if_pos rfl,
        Int.toNat_natCast, beBytes_beNat]

theorem bytesToBig_bigToBytes_negative :
    let mip := (mirsys 17).set (.caller 0) (Big.ofInt (-0x0102030405))
    let (mip', ptr, count) := mip.bigToBytes 0 (.caller 0) ⟨fun _ => 0xFF⟩ false
    mip'.bytesToBig (ptr.bytes 0 count.toNat) (.caller 1) =
      mip.set (.caller 1) (Big.ofNat 0x0102030405) := by
  have number : ((mirsys 17).set (.caller 0) (Big.ofInt (-0x0102030405))).bigs (.caller 0) =
      Big.ofInt (-0x0102030405) := bigs_set_self _ _ _
  have normal := Big.ofInt_normal (-0x0102030405)
  have length : (Big.ofInt (-0x0102030405)).len ≤ 17 := normal.len_le (by
    rw [Big.ofInt_magnitude]
    decide)
  have readBack := bytesToBig_bigToBytes ((mirsys_clean 17).set normal.clean) rfl
    (x := .caller 0) (by rw [number]; exact normal) (Or.inl (by rw [number]; exact length))
    (Or.inr ⟨rfl, rfl⟩) ⟨fun _ => 0xFF⟩ (.caller 1)
  rw [number, Big.ofInt_magnitude] at readBack
  exact readBack

theorem bigToBytes_bytesToBig_long :
    (((mirsys 2).bytesToBig [0, 1, 2, 3, 4, 5, 6, 7, 8] (.caller 0)).bigToBytes 9 (.caller 0)
      ⟨fun _ => 0xFF⟩ true).2 = (Buffer.copy ⟨fun _ => 0xFF⟩ 0 [0, 1, 2, 3, 4, 5, 6, 7, 8], 9) :=
  bigToBytes_bytesToBig (mirsys_clean 2) rfl (Or.inl (by decide)) (.caller 0) _

end Mip

end Penglai.Miracl

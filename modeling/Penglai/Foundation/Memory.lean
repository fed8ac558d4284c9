import Penglai.Foundation.Buffer

namespace Penglai

/-! # Flat memory

Bytes under 64-bit addresses that wrap around: reading and writing ranges, and calls
that take blocks through pointers. -/

/-- A byte-addressed memory; addresses wrap around modulo 2^64. -/
abbrev Memory := UInt64 → UInt8

namespace Memory

def read (memory : Memory) (address : UInt64) (size : Nat) : List UInt8 :=
  (List.range size).map fun offset => memory (address + UInt64.ofNat offset)

def write (memory : Memory) (address : UInt64) (bytes : List UInt8) : Memory :=
  fun location => bytes.getD (location - address).toNat (memory location)

def InRange (location address : UInt64) (size : Nat) : Prop := (location - address).toNat < size

instance (location address : UInt64) (size : Nat) : Decidable (InRange location address size) :=
  inferInstanceAs (Decidable (_ < _))

@[simp] theorem read_length (memory : Memory) (address : UInt64) (size : Nat) :
    (memory.read address size).length = size := by
  simp [read]

theorem read_add (memory : Memory) (address : UInt64) (front back : Nat) :
    memory.read address (front + back) =
      memory.read address front ++ memory.read (address + UInt64.ofNat front) back := by
  simp [read, List.range_add, Function.comp_def, UInt64.add_assoc]

@[simp] theorem getElem_read (memory : Memory) (address : UInt64) {size offset : Nat}
    (inside : offset < (memory.read address size).length) :
    (memory.read address size)[offset] = memory (address + UInt64.ofNat offset) := by
  simp [read]

theorem getD_read (memory : Memory) (address : UInt64) {size offset : Nat}
    (inside : offset < size) :
    (memory.read address size).getD offset 0 = memory (address + UInt64.ofNat offset) := by
  rw [List.getD_eq_getElem?_getD, List.getElem?_eq_getElem (by simpa using inside), getElem_read]
  rfl

theorem toNat_add_ofNat_sub (address : UInt64) {offset : Nat} (fits : offset < 2 ^ 64) :
    (address + UInt64.ofNat offset - address).toNat = offset := by
  rw [UInt64.add_comm, UInt64.add_sub_cancel, UInt64.toNat_ofNat_of_lt' fits]

theorem inRange_add {address : UInt64} {offset size : Nat} (inside : offset < size)
    (bound : size ≤ 2 ^ 64) : InRange (address + UInt64.ofNat offset) address size := by
  rw [InRange, toNat_add_ofNat_sub address (by omega)]
  exact inside

theorem add_ofNat_sub (location address : UInt64) :
    address + UInt64.ofNat (location - address).toNat = location := by
  rw [UInt64.ofNat_toNat, UInt64.add_comm, UInt64.sub_add_cancel]

theorem read_eq_read_iff {memory memory' : Memory} {address : UInt64} {size : Nat}
    (bound : size ≤ 2 ^ 64) :
    memory.read address size = memory'.read address size ↔
      ∀ location, InRange location address size → memory location = memory' location := by
  constructor
  · intro same location inside
    have cell := congrArg (fun bytes => bytes[(location - address).toNat]?) same
    have index : (location - address).toNat < size := inside
    simp only [List.getElem?_eq_getElem (show (location - address).toNat <
      (memory.read address size).length by simpa using index),
      List.getElem?_eq_getElem (show (location - address).toNat <
      (memory'.read address size).length by simpa using index), getElem_read, add_ofNat_sub,
      Option.some.injEq] at cell
    exact cell
  · intro same
    apply List.ext_getElem
    · simp
    · intro offset inside _
      rw [read_length] at inside
      rw [getElem_read, getElem_read]
      exact same _ (inRange_add inside bound)

theorem write_of_not_inRange {memory : Memory} {location address : UInt64} {bytes : List UInt8}
    (outside : ¬InRange location address bytes.length) :
    memory.write address bytes location = memory location := by
  rw [write, List.getD_eq_getElem?_getD, List.getElem?_eq_none (Nat.le_of_not_lt outside)]
  rfl

theorem write_of_inRange {memory : Memory} {location address : UInt64} {bytes : List UInt8}
    (inside : InRange location address bytes.length) :
    memory.write address bytes location = bytes.get ⟨(location - address).toNat, inside⟩ := by
  rw [write, List.getD_eq_getElem?_getD, List.getElem?_eq_getElem inside]
  rfl

theorem read_write (memory : Memory) (address : UInt64) {bytes : List UInt8}
    (bound : bytes.length ≤ 2 ^ 64) :
    (memory.write address bytes).read address bytes.length = bytes := by
  apply List.ext_getElem
  · simp
  · intro offset inside _
    rw [read_length] at inside
    have fits : offset < 2 ^ 64 := by omega
    rw [getElem_read, write_of_inRange (inRange_add inside bound)]
    simp only [toNat_add_ofNat_sub address fits, List.get_eq_getElem]

/-! ## Placed bytes -/

def Holds (memory : Memory) (address : UInt64) (bytes : List UInt8) : Prop :=
  ∀ location, InRange location address bytes.length →
    memory location = bytes.getD (location - address).toNat 0

/-- Where the two ranges overlap, they have the same byte. -/
def Agree (address : UInt64) (bytes : List UInt8) (address' : UInt64) (bytes' : List UInt8) :
    Prop :=
  ∀ location, InRange location address bytes.length → InRange location address' bytes'.length →
    bytes.getD (location - address).toNat 0 = bytes'.getD (location - address').toNat 0

theorem agree_of_apart {address address' : UInt64} {bytes bytes' : List UInt8}
    (apart : ∀ location, InRange location address bytes.length →
      ¬InRange location address' bytes'.length) : Agree address bytes address' bytes' :=
  fun location inside inside' => absurd inside' (apart location inside)

theorem write_getD {memory : Memory} {location address : UInt64} {bytes : List UInt8}
    (inside : InRange location address bytes.length) :
    memory.write address bytes location = bytes.getD (location - address).toNat 0 := by
  rw [write_of_inRange inside, List.getD_eq_getElem?_getD, List.getElem?_eq_getElem inside]
  rfl

theorem holds_write (memory : Memory) (address : UInt64) (bytes : List UInt8) :
    (memory.write address bytes).Holds address bytes :=
  fun _ inside => write_getD inside

theorem Holds.write_iff {memory : Memory} {address address' : UInt64} {bytes : List UInt8}
    (holds : memory.Holds address bytes) (bytes' : List UInt8) :
    (memory.write address' bytes').Holds address bytes ↔ Agree address bytes address' bytes' := by
  constructor
  · intro after location inside inside'
    rw [← after location inside, write_getD inside']
  · intro agree location inside
    by_cases inside' : InRange location address' bytes'.length
    · rw [write_getD inside', agree location inside inside']
    · rw [write_of_not_inRange inside', holds location inside]

theorem holds_iff_read {memory : Memory} {address : UInt64} {bytes : List UInt8}
    (bound : bytes.length ≤ 2 ^ 64) :
    memory.Holds address bytes ↔ memory.read address bytes.length = bytes := by
  have same : memory.read address bytes.length = bytes ↔
      memory.read address bytes.length =
        (memory.write address bytes).read address bytes.length := by
    rw [read_write memory address bound]
  rw [same, read_eq_read_iff bound]
  constructor
  · intro holds location inside
    rw [holds location inside, write_getD inside]
  · intro cells location inside
    rw [cells location inside, write_getD inside]

/-! ## Single bytes and blocks -/

def store (memory : Memory) (address : UInt64) (byte : UInt8) : Memory :=
  Function.update memory address byte

def block (width : Nat) (memory : Memory) (address : UInt64) : Bytes width :=
  Vector.ofFn fun offset => memory (address + UInt64.ofNat offset.val)

theorem store_eq_write (memory : Memory) (address : UInt64) (byte : UInt8) :
    memory.store address byte = memory.write address [byte] := by
  funext location
  by_cases here : location = address
  · subst location
    simp [store, write]
  · have outside : ¬InRange location address [byte].length := by
      intro inside
      have offsetZero : (location - address).toNat = 0 := by
        simpa [InRange] using inside
      apply here
      rw [← add_ofNat_sub location address, offsetZero]
      exact UInt64.add_zero address
    rw [write_of_not_inRange outside, store, Function.update_of_ne here]

private theorem toNat_sub_add (location address : UInt64) {size : Nat} (bound : size < 2 ^ 64) :
    (location - (address + UInt64.ofNat size)).toNat =
      if size ≤ (location - address).toNat then (location - address).toNat - size
      else 2 ^ 64 + (location - address).toNat - size := by
  have locationBound : location.toNat < 2 ^ 64 := location.toNat_lt
  have addressBound : address.toNat < 2 ^ 64 := address.toNat_lt
  rw [UInt64.toNat_sub, UInt64.toNat_sub, UInt64.toNat_add, UInt64.toNat_ofNat_of_lt' bound]
  split_ifs <;> omega

theorem write_append (memory : Memory) (address : UInt64) {front back : List UInt8}
    (bound : front.length + back.length < 2 ^ 64) :
    (memory.write address front).write (address + UInt64.ofNat front.length) back =
      memory.write address (front ++ back) := by
  funext location
  have small : (location - address).toNat < 2 ^ 64 := UInt64.toNat_lt _
  simp only [write, List.getD_eq_getElem?_getD]
  rw [toNat_sub_add location address (show front.length < 2 ^ 64 by omega)]
  by_cases inFront : (location - address).toNat < front.length
  · rw [if_neg (by omega), List.getElem?_append_left inFront, List.getElem?_eq_none (by omega),
      List.getElem?_eq_getElem inFront]
    rfl
  · rw [if_pos (by omega), List.getElem?_append_right (by omega),
      List.getElem?_eq_none (Nat.le_of_not_lt inFront)]
    rfl

@[simp] theorem write_nil (memory : Memory) (address : UInt64) :
    memory.write address [] = memory := by
  funext location
  exact write_of_not_inRange (Nat.not_lt_zero _)

theorem store_write (memory : Memory) (address : UInt64) {bytes : List UInt8} {offset : Nat}
    (behind : bytes.length = offset) (bound : offset + 1 < 2 ^ 64) (byte : UInt8) :
    (memory.write address bytes).store (address + UInt64.ofNat offset) byte =
      memory.write address (bytes ++ [byte]) := by
  subst behind
  rw [store_eq_write, write_append memory address (by simpa using bound)]

theorem forRange_store (memory : Memory) (address : UInt64) (value : Nat → UInt8 → UInt8) :
    ∀ {count : Nat}, count < 2 ^ 64 →
      forRange 0 count
          (fun i memory => memory.store (address + UInt64.ofNat i)
            (value i (memory (address + UInt64.ofNat i)))) memory =
        memory.write address
          ((List.range count).map fun i => value i (memory (address + UInt64.ofNat i)))
  | 0, _ => (memory.write_nil address).symm
  | count + 1, bound => by
      have outside : ¬InRange (address + UInt64.ofNat count) address
          ((List.range count).map fun i => value i (memory (address + UInt64.ofNat i))).length := by
        rw [InRange, toNat_add_ofNat_sub address (by omega)]
        simp
      rw [forRange_succ, forRange_store memory address value (show count < 2 ^ 64 by omega),
        Nat.zero_add, write_of_not_inRange outside, store_write memory address (by simp) bound,
        List.range_succ, List.map_append, List.map_singleton]

theorem write_write (memory : Memory) (address : UInt64) {first second : List UInt8}
    (sameLength : first.length = second.length) :
    (memory.write address first).write address second = memory.write address second := by
  funext location
  by_cases inside : InRange location address second.length
  · rw [write_of_inRange inside, write_of_inRange inside]
  · rw [write_of_not_inRange inside, write_of_not_inRange inside,
      write_of_not_inRange (sameLength ▸ inside)]

section Block

variable {width : Nat} (memory : Memory) (address : UInt64)

theorem getElem_block {offset : Nat} (inside : offset < width) :
    (memory.block width address)[offset] = memory (address + UInt64.ofNat offset) := by
  rw [block, Vector.getElem_ofFn]

theorem toList_block : (memory.block width address).toList = memory.read address width := by
  apply List.ext_getElem
  · simp
  · intro offset inside _
    simp [getElem_block]

@[simp] theorem write_block :
    memory.write address (memory.block width address).toList = memory := by
  funext location
  by_cases inside : InRange location address (memory.block width address).toList.length
  · rw [write_of_inRange inside, List.get_eq_getElem, Vector.getElem_toList, getElem_block,
      add_ofNat_sub]
  · exact write_of_not_inRange inside

variable {memory address}

theorem block_write (bound : width ≤ 2 ^ 64) (data : Bytes width) :
    (memory.write address data.toList).block width address = data := by
  have fits : data.toList.length ≤ 2 ^ 64 := by simpa using bound
  have written := memory.read_write address fits
  apply Vector.toList_inj.mp
  rw [toList_block]
  simpa using written

theorem apart_of_distance {address other : UInt64} {size size' : Nat}
    (ahead : size ≤ (other - address).toNat) (behind : size' ≤ (address - other).toNat) :
    ∀ location, InRange location address size → ¬InRange location other size' := by
  intro location inside inside'
  rw [InRange, UInt64.toNat_sub] at inside inside'
  rw [UInt64.toNat_sub] at ahead behind
  have locationBound : location.toNat < 2 ^ 64 := location.toNat_lt
  have addressBound : address.toNat < 2 ^ 64 := address.toNat_lt
  have otherBound : other.toNat < 2 ^ 64 := other.toNat_lt
  omega

theorem block_write_of_apart {other : UInt64} {size : Nat} (bound : width ≤ 2 ^ 64)
    (apart : ∀ location, InRange location address width → ¬InRange location other size)
    (data : Bytes size) :
    (memory.write other data.toList).block width address = memory.block width address := by
  apply Vector.ext
  intro offset inside
  rw [getElem_block, getElem_block]
  apply write_of_not_inRange
  rw [Vector.length_toList]
  exact apart _ (inRange_add inside bound)

end Block

/-! ## Buffers in memory -/

/-- The buffer that a pointer to `base` gives access to. -/
def buffer (memory : Memory) (base : UInt64) : Buffer where
  get index := memory (base + UInt64.ofNat index)

section Buffer

variable {width : Nat} (memory : Memory) (base : UInt64)

theorem get_buffer (index : Nat) :
    (memory.buffer base).get index = memory (base + UInt64.ofNat index) := rfl

@[simp] theorem block_buffer (offset : Nat) :
    (memory.buffer base).block width offset =
      memory.block width (base + UInt64.ofNat offset) := by
  apply Vector.ext
  intro index inside
  rw [getElem_block, Buffer.block, Vector.getElem_ofFn, get_buffer, UInt64.ofNat_add,
    UInt64.add_assoc]

theorem get_buffer_write {offset index : Nat} (fits : offset + width ≤ 2 ^ 64)
    (inside : index < 2 ^ 64) (nonempty : 0 < width) (data : Bytes width) :
    ((memory.write (base + UInt64.ofNat offset) data.toList).buffer base).get index =
      ((memory.buffer base).write offset data).get index := by
  have distance := toNat_sub_add (base + UInt64.ofNat index) base
    (show offset < 2 ^ 64 by omega)
  rw [toNat_add_ofNat_sub base inside] at distance
  simp only [get_buffer, write, distance, Buffer.get_write, List.getD_eq_getElem?_getD]
  by_cases here : offset ≤ index ∧ index - offset < width
  · rw [if_pos here.1, dif_pos here, List.getElem?_eq_getElem (by simpa using here.2),
      Option.getD_some, Vector.getElem_toList]
  · rw [dif_neg here, List.getElem?_eq_none]
    · rfl
    · rw [Vector.length_toList]
      split_ifs <;> omega

end Buffer

/-! ## Calls on blocks -/

section Call

variable {keyWidth width : Nat}

/-- All that the call `f(key, input, output)` does is to write `cipher key input`
over the output. The three arrays may overlap. -/
def Writes (call : UInt64 → UInt64 → UInt64 → Memory → Memory)
    (cipher : Bytes keyWidth → Bytes width → Bytes width) : Prop :=
  ∀ (memory : Memory) (key input output : UInt64),
    call key input output memory =
      memory.write output
        (cipher (memory.block keyWidth key) (memory.block width input)).toList

variable {forward backward : UInt64 → UInt64 → UInt64 → Memory → Memory}
  {cipher decipher : Bytes keyWidth → Bytes width → Bytes width} {memory : Memory}
  {key key' input output back buffer : UInt64}

theorem Writes.block_output (writes : Writes forward cipher) (bound : width ≤ 2 ^ 64) :
    (forward key input output memory).block width output =
      cipher (memory.block keyWidth key) (memory.block width input) := by
  rw [writes, block_write bound]

theorem Writes.undone (forwardWrites : Writes forward cipher)
    (backwardWrites : Writes backward decipher) (bound : width ≤ 2 ^ 64)
    (inverts : ∀ key block, decipher key (cipher key block) = block)
    (sameKey : (forward key input output memory).block keyWidth key' =
      memory.block keyWidth key) :
    backward key' output back (forward key input output memory) =
      (forward key input output memory).write back (memory.block width input).toList := by
  rw [backwardWrites, sameKey, forwardWrites.block_output bound, inverts]

/-- In place, the two calls leave the whole memory as it was. -/
theorem Writes.undone_inPlace (forwardWrites : Writes forward cipher)
    (backwardWrites : Writes backward decipher) (bound : width ≤ 2 ^ 64)
    (keyBound : keyWidth ≤ 2 ^ 64)
    (inverts : ∀ key block, decipher key (cipher key block) = block)
    (apart : ∀ location, InRange location key keyWidth → ¬InRange location buffer width) :
    backward key buffer buffer (forward key buffer buffer memory) = memory := by
  have sameKey : (forward key buffer buffer memory).block keyWidth key =
      memory.block keyWidth key := by
    rw [forwardWrites, block_write_of_apart keyBound apart]
  rw [forwardWrites.undone backwardWrites bound inverts sameKey, forwardWrites,
    write_write memory buffer (by simp), write_block]

end Call

end Memory

end Penglai

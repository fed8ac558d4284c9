import Penglai.Foundation.Bytes
import Penglai.Foundation.Loop

namespace Penglai

/-! # Byte buffers

A buffer maps every index to a byte; what a function may touch of it is for the
statements about that function to say. -/

@[ext] structure Buffer where
  get : Nat → UInt8

namespace Buffer

variable {width : Nat}

def bytes (buf : Buffer) (offset size : Nat) : List UInt8 :=
  (List.range size).map fun index => buf.get (offset + index)

def block (width : Nat) (buf : Buffer) (offset : Nat) : Bytes width :=
  Vector.ofFn fun index => buf.get (offset + index.val)

def set (buf : Buffer) (index : Nat) (value : UInt8) : Buffer where
  get other := if other = index then value else buf.get other

def write (buf : Buffer) (offset : Nat) (data : Bytes width) : Buffer where
  get index :=
    if inside : offset ≤ index ∧ index - offset < width then data[index - offset]
    else buf.get index

def copy (buf : Buffer) (offset : Nat) (data : List UInt8) : Buffer where
  get index :=
    if offset ≤ index ∧ index - offset < data.length then data.getD (index - offset) 0
    else buf.get index

@[simp] theorem get_set (buf : Buffer) (index : Nat) (value : UInt8) (other : Nat) :
    (buf.set index value).get other = if other = index then value else buf.get other := rfl

theorem get_write (buf : Buffer) (offset : Nat) (data : Bytes width) (index : Nat) :
    (buf.write offset data).get index =
      if inside : offset ≤ index ∧ index - offset < width then data[index - offset]
      else buf.get index := rfl

theorem get_copy (buf : Buffer) (offset : Nat) (data : List UInt8) (index : Nat) :
    (buf.copy offset data).get index =
      if offset ≤ index ∧ index - offset < data.length then data.getD (index - offset) 0
      else buf.get index := rfl

@[simp] theorem bytes_length (buf : Buffer) (offset size : Nat) :
    (buf.bytes offset size).length = size := by
  simp [bytes]

theorem bytes_add (buf : Buffer) (offset front back : Nat) :
    buf.bytes offset (front + back) =
      buf.bytes offset front ++ buf.bytes (offset + front) back := by
  simp [bytes, List.range_add, Function.comp_def, Nat.add_assoc]

theorem getD_bytes (buf : Buffer) {size index : Nat} (inside : index < size) :
    (buf.bytes 0 size).getD index 0 = buf.get index := by
  simp [bytes, inside]

theorem bytes_congr {left right : Buffer} {offset size : Nat}
    (agree : ∀ index, offset ≤ index → index < offset + size → left.get index = right.get index) :
    left.bytes offset size = right.bytes offset size := by
  apply List.map_congr_left
  intro index inRange
  exact agree _ (by omega) (by have := List.mem_range.mp inRange; omega)

theorem block_congr {left right : Buffer} {offset : Nat}
    (agree : ∀ index, offset ≤ index → index < offset + width →
      left.get index = right.get index) :
    left.block width offset = right.block width offset := by
  apply Vector.ext
  intro index inside
  rw [block, block, Vector.getElem_ofFn, Vector.getElem_ofFn]
  exact agree _ (by omega) (by simp only; omega)

theorem bytes_eq_toList (buf : Buffer) (offset : Nat) :
    buf.bytes offset width = (buf.block width offset).toList := by
  rw [bytes, block, Vector.toList_ofFn]
  apply List.ext_getElem
  · simp
  · intro index _ _
    simp

theorem bytes_eq_flatMap (buf : Buffer) (count : Nat) :
    buf.bytes 0 (width * count) =
      (List.range count).flatMap fun index => (buf.block width (width * index)).toList := by
  induction count with
  | zero => simp [bytes]
  | succ count induction =>
      rw [Nat.mul_succ, bytes_add, induction, Nat.zero_add, bytes_eq_toList, List.range_succ,
        List.flatMap_append]
      simp

/-! ## Reading what was written -/

@[simp] theorem block_write_self (buf : Buffer) (offset : Nat) (data : Bytes width) :
    (buf.write offset data).block width offset = data := by
  apply Vector.ext
  intro index inside
  simp [block, write]

theorem get_write_of_lt {buf : Buffer} {offset index : Nat} {data : Bytes width}
    (before : index < offset) : (buf.write offset data).get index = buf.get index := by
  rw [get_write, dif_neg (by omega)]

theorem get_write_of_ge {buf : Buffer} {offset index : Nat} {data : Bytes width}
    (past : offset + width ≤ index) : (buf.write offset data).get index = buf.get index := by
  rw [get_write, dif_neg (by omega)]

theorem get_write_add (buf : Buffer) (offset : Nat) (data : Bytes width) {index : Nat}
    (inside : index < width) : (buf.write offset data).get (offset + index) = data[index] := by
  simp [get_write, inside]

theorem block_write_of_disjoint {buf : Buffer} {offset other : Nat} {data : Bytes width}
    (disjoint : other + width ≤ offset ∨ offset + width ≤ other) :
    (buf.write offset data).block width other = buf.block width other := by
  apply block_congr
  intro index from_ below
  rcases disjoint with before | past
  · exact get_write_of_lt (by omega)
  · exact get_write_of_ge (by omega)

@[simp] theorem write_write (buf : Buffer) (offset : Nat) (first second : Bytes width) :
    (buf.write offset first).write offset second = buf.write offset second := by
  ext index
  by_cases inside : offset ≤ index ∧ index - offset < width <;> simp [write, inside]

theorem get_copy_of_ge {buf : Buffer} {offset index : Nat} {data : List UInt8}
    (past : offset + data.length ≤ index) : (buf.copy offset data).get index = buf.get index := by
  rw [get_copy, if_neg (by omega)]

theorem bytes_copy_self (buf : Buffer) (data : List UInt8) :
    (buf.copy 0 data).bytes 0 data.length = data := by
  apply List.ext_getElem
  · simp
  · intro index _ inside
    simp [bytes, get_copy, inside]

/-! ## Filling from the front -/

@[simp] theorem copy_nil (buf : Buffer) (offset : Nat) : buf.copy offset [] = buf := by
  ext index
  simp [get_copy]

theorem copy_append (buf : Buffer) (offset : Nat) (front back : List UInt8) :
    (buf.copy offset front).copy (offset + front.length) back = buf.copy offset (front ++ back) := by
  ext index
  simp only [get_copy, List.length_append, List.getD_eq_getElem?_getD]
  by_cases inFront : index - offset < front.length
  · rw [List.getElem?_append_left inFront]
    split_ifs <;> first | rfl | omega
  · rw [List.getElem?_append_right (Nat.le_of_not_lt inFront), ← Nat.sub_sub]
    split_ifs <;> first | rfl | omega

theorem copy_prepend (buf : Buffer) (offset : Nat) (front back : List UInt8) :
    (buf.copy (offset + front.length) back).copy offset front = buf.copy offset (front ++ back) := by
  rw [← copy_append]
  ext index
  simp only [get_copy]
  split_ifs <;> first | rfl | omega

theorem copy_copy (buf : Buffer) (front back : List UInt8) :
    (buf.copy 0 front).copy front.length back = buf.copy 0 (front ++ back) := by
  rw [← copy_append, Nat.zero_add]

theorem write_eq_copy (buf : Buffer) (offset : Nat) (data : Bytes width) :
    buf.write offset data = buf.copy offset data.toList := by
  ext index
  rw [get_write, get_copy, Vector.length_toList]
  split_ifs with inside
  · simp [inside.2]
  · rfl

theorem set_eq_copy (buf : Buffer) (index : Nat) (value : UInt8) :
    buf.set index value = buf.copy index [value] := by
  ext other
  rw [get_set, get_copy, List.length_singleton]
  by_cases here : other = index
  · simp [here]
  · rw [if_neg here, if_neg (by omega)]

theorem get_forRange_set (base count : Nat) (value : Nat → UInt8 → UInt8) (buf : Buffer)
    (index : Nat) :
    (forRange 0 count
        (fun i buf => buf.set (base + i) (value i (buf.get (base + i)))) buf).get index =
      if base ≤ index ∧ index < base + count then value (index - base) (buf.get index)
      else buf.get index := by
  induction count with
  | zero =>
      rw [forRange_zero, if_neg (by omega)]
  | succ count induction =>
      rw [forRange_succ, get_set, Nat.zero_add]
      by_cases here : index = base + count
      · have offset : index - base = count := by omega
        rw [if_pos here, ← here, induction, if_neg (by omega), if_pos (by omega), offset]
      · rw [if_neg here, induction]
        split_ifs <;> first | rfl | omega

end Buffer

end Penglai

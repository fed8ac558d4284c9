import Penglai.Foundation.ArrayLoop
import Penglai.Foundation.BlockAbsorb
import Penglai.Gm.Sm3Blocks

namespace Penglai.Gm

/-! # What an SM3 state has absorbed

The state after any sequence of `SM3_process` calls is determined, up to the
dead part of the block buffer, by the bytes given to them; `SM3_done` then
compresses the padded stream. -/

/-! ## The absorption invariant -/

/-- The state that stands for `stream`. Cells of `buf` from `curlen` on are
left over from earlier blocks or from before `SM3_init`. -/
structure Sm3Absorbed (stream : List UInt8) (md : Sm3State) : Prop where
  state : md.state = chainBlocks compressBlock stream sm3Iv
  length : md.length = UInt32.ofNat (512 * (stream.length / 64))
  curlen : md.curlen.val = stream.length % 64
  pending : Pending stream md.buf

theorem sm3Absorbed_init (staleBuf : Bytes 64) : Sm3Absorbed [] (sm3Init staleBuf) where
  state := rfl
  length := rfl
  curlen := rfl
  pending := pending_nil staleBuf

theorem Sm3Absorbed.completed {stream : List UInt8} {md : Sm3State}
    (absorbed : Sm3Absorbed stream md) (full : ¬md.curlen.val + 1 < 64) (byte : UInt8) :
    sm3ByteBlocks md byte = [blockAt 64 (stream ++ [byte]) (stream.length / 64)] := by
  have curlen := absorbed.curlen
  rw [(sm3ProcessByte_of_full full byte).2, List.cons.injEq]
  refine ⟨?_, rfl⟩
  apply absorbed.pending.complete
  · rw [List.length_singleton]
    omega
  · intro position older
    rw [Fin.getElem_fin, Vector.getElem_set_ne _ _ (by omega)]
    rfl
  · intro position newest
    have here : md.curlen.val = position.val := by omega
    rw [Fin.getElem_fin, Vector.getElem_set, if_pos here, ← here, curlen]
    simp

theorem Sm3Absorbed.processByte {stream : List UInt8} {md : Sm3State}
    (absorbed : Sm3Absorbed stream md) (byte : UInt8) :
    Sm3Absorbed (stream ++ [byte]) (sm3ProcessByte md byte) ∧
      wholeBlocks 64 (stream ++ [byte]) = wholeBlocks 64 stream ++ sm3ByteBlocks md byte := by
  have curlen := absorbed.curlen
  by_cases room : md.curlen.val + 1 < 64
  · have lengths : (stream.length + 1) / 64 = stream.length / 64 ∧
        (stream.length + 1) % 64 = stream.length % 64 + 1 := by omega
    have stillRoom : stream.length % 64 + 1 < 64 := by omega
    have same := wholeBlocks_concat_of_unfilled byte stillRoom
    rw [(sm3ProcessByte_of_room room byte).1, (sm3ProcessByte_of_room room byte).2, same,
      List.append_nil]
    refine ⟨⟨?_, ?_, ?_, ?_⟩, rfl⟩
    · rw [chainBlocks_eq_foldl, same, ← chainBlocks_eq_foldl]
      exact absorbed.state
    · simp [absorbed.length, lengths.1]
    · simp [curlen, lengths.2]
    · simpa [curlen] using absorbed.pending.concat_of_unfilled stillRoom
  · have full : stream.length % 64 + [byte].length = 64 := by
      rw [List.length_singleton]
      omega
    have lengths : (stream.length + 1) / 64 = stream.length / 64 + 1 ∧
        (stream.length + 1) % 64 = 0 := by
      rw [List.length_singleton] at full
      omega
    have more := wholeBlocks_append_of_full (by decide) full
    rw [← absorbed.completed room byte] at more
    have state := sm3ProcessByte_state md byte
    rw [(sm3ProcessByte_of_full room byte).1] at state ⊢
    refine ⟨⟨?_, ?_, ?_, ?_⟩, more⟩
    · rw [state, absorbed.state, chainBlocks_eq_foldl, chainBlocks_eq_foldl, more,
        List.foldl_append]
      rfl
    · simp [absorbed.length, lengths.1, Nat.mul_add]
    · simp [lengths.2]
    · exact pending_of_full _ (by decide) full

theorem Sm3Absorbed.processed {absorbedBytes : List UInt8} {md : Sm3State}
    (absorbed : Sm3Absorbed absorbedBytes md) (bytes : List UInt8) :
    Sm3Absorbed (absorbedBytes ++ bytes) (sm3Process md bytes) ∧
      wholeBlocks 64 (absorbedBytes ++ bytes) =
        wholeBlocks 64 absorbedBytes ++ sm3ProcessBlocks md bytes := by
  induction bytes generalizing absorbedBytes md with
  | nil => simpa [sm3Process, sm3ProcessBlocks] using absorbed
  | cons byte rest induction =>
      rcases absorbed.processByte byte with ⟨here, block⟩
      rcases induction here with ⟨next, blocks⟩
      rw [List.append_assoc, List.singleton_append] at next blocks
      rw [block, List.append_assoc] at blocks
      exact ⟨next, blocks⟩

theorem Sm3Absorbed.process {absorbedBytes : List UInt8} {md : Sm3State}
    (absorbed : Sm3Absorbed absorbedBytes md) (bytes : List UInt8) :
    Sm3Absorbed (absorbedBytes ++ bytes) (sm3Process md bytes) :=
  (absorbed.processed bytes).1

/-! ## Consecutive calls -/

theorem sm3Process_append (md : Sm3State) (front back : List UInt8) :
    sm3Process md (front ++ back) = sm3Process (sm3Process md front) back := by
  induction front generalizing md with
  | nil => rfl
  | cons byte rest induction => exact induction (sm3ProcessByte md byte)

theorem sm3Process_flatten (md : Sm3State) (pieces : List (List UInt8)) :
    pieces.foldl sm3Process md = sm3Process md pieces.flatten := by
  induction pieces generalizing md with
  | nil => rfl
  | cons piece rest induction =>
      rw [List.foldl_cons, induction, List.flatten_cons, sm3Process_append]

/-! ## The digest -/

/-- The marker byte, zeros up to eight bytes short of a block boundary, and the
bit length, of which only the low 32 bits are counted. -/
def sm3Padding (length : Nat) : List UInt8 :=
  0x80 :: List.replicate ((119 - length % 64) % 64) 0 ++
    (List.replicate 4 0 ++ beBytes 4 (8 * length % 2 ^ 32))

theorem zeroFill_getElem (buf : Bytes 64) {curlen stop : Nat} (position : Nat)
    (inside : position < 64) :
    (zeroFill buf curlen stop)[position] =
      if curlen ≤ position ∧ position < stop then 0 else buf[position] := by
  rw [← getElem!_pos _ position inside, zeroFill,
    getElem!_forRange_set_here (fun _ _ _ _ => rfl), getElem!_pos buf position inside]
  split_ifs <;> first | rfl | omega

theorem putLength_getElem (buf : Bytes 64) (length : UInt32) (position : Nat)
    (inside : position < 64) :
    (putLength buf length)[position] =
      if position < 56 then buf[position]
      else (List.replicate 4 0 ++ beBytes 4 length.toNat).getD (position - 56) default := by
  rw [beBytes_word]
  by_cases front : position < 56
  · rw [if_pos front]
    simp only [putLength, forRange, Vector.set!_eq_setIfInBounds, Vector.getElem_setIfInBounds]
    repeat rw [if_neg (by omega)]
  · rw [if_neg front]
    interval_cases position <;> simp [putLength, forRange]

private theorem getD_append_past {front back : List UInt8} {position : Nat}
    (past : front.length ≤ position) :
    (front ++ back).getD position default = back.getD (position - front.length) default := by
  simp [List.getElem?_append_right past]

theorem putLength_complete {stream : List UInt8} {buf : Bytes 64}
    (pending : Pending stream buf) (room : stream.length % 64 ≤ 56) (length : UInt32) :
    putLength (zeroFill buf (stream.length % 64) 56) length =
      blockAt 64
        (stream ++ (List.replicate (56 - stream.length % 64) 0 ++
          (List.replicate 4 0 ++ beBytes 4 length.toNat)))
        (stream.length / 64) := by
  apply pending.complete
  · simp
    omega
  · intro position older
    rw [Fin.getElem_fin, putLength_getElem, if_pos (by omega), zeroFill_getElem,
      if_neg (by omega)]
    rfl
  · intro position newer
    rw [Fin.getElem_fin, putLength_getElem, zeroFill_getElem]
    by_cases front : position.val < 56
    · have inZeros : position.val - stream.length % 64 < 56 - stream.length % 64 := by omega
      rw [if_pos front, if_pos ⟨newer, front⟩]
      simp [List.getElem?_append_left, inZeros]
    · have offset : position.val - stream.length % 64 - (56 - stream.length % 64) =
          position.val - 56 := by omega
      have pastZeros : (List.replicate (56 - stream.length % 64) (0 : UInt8)).length ≤
          position.val - stream.length % 64 := by
        rw [List.length_replicate]
        omega
      rw [if_neg front, getD_append_past pastZeros, List.length_replicate, offset]

theorem marker_complete {stream : List UInt8} {buf : Bytes 64} (pending : Pending stream buf)
    (inside : stream.length % 64 < 64) :
    zeroFill (buf.set (stream.length % 64) 0x80 inside) (stream.length % 64 + 1) 64 =
      blockAt 64 (stream ++ 0x80 :: List.replicate (63 - stream.length % 64) 0)
        (stream.length / 64) := by
  apply pending.complete
  · simp
    omega
  · intro position older
    rw [Fin.getElem_fin, zeroFill_getElem, if_neg (by omega),
      Vector.getElem_set_ne _ _ (by omega)]
    rfl
  · intro position newer
    rw [Fin.getElem_fin, zeroFill_getElem, Vector.getElem_set]
    by_cases atMarker : stream.length % 64 = position.val
    · rw [if_neg (by omega), if_pos atMarker, ← atMarker]
      simp
    · obtain ⟨gap, offset⟩ : ∃ gap, position.val - stream.length % 64 = gap + 1 :=
        Nat.exists_eq_succ_of_ne_zero (by omega)
      have inZeros : gap < 63 - stream.length % 64 := by omega
      rw [if_pos (by omega), offset]
      simp [inZeros]

theorem Sm3Absorbed.bitLength {stream : List UInt8} {md : Sm3State}
    (absorbed : Sm3Absorbed stream md) :
    (md.length + md.curlen.val.toUInt32 <<< 3).toNat = 8 * stream.length % 2 ^ 32 := by
  have small : stream.length % 64 % 2 ^ 32 = stream.length % 64 := by omega
  rw [absorbed.length, absorbed.curlen, UInt32.toNat_add, UInt32.toNat_shiftLeft]
  simp [Nat.shiftLeft_eq]
  omega

private theorem lastBlock {stream : List UInt8} {buf : Bytes 64}
    (pending : Pending stream buf) (room : stream.length % 64 ≤ 56) (length : UInt32) :
    wholeBlocks 64 stream ++ [putLength (zeroFill buf (stream.length % 64) 56) length] =
      wholeBlocks 64
        (stream ++ (List.replicate (56 - stream.length % 64) 0 ++
          (List.replicate 4 0 ++ beBytes 4 length.toNat))) := by
  rw [putLength_complete pending room, wholeBlocks_append_of_full (by decide)]
  simp
  omega

/-- `SM3_done` compresses what is left of the padded stream, whatever lies in the dead
part of the buffer. -/
theorem Sm3Absorbed.doneBlocks {stream : List UInt8} {md : Sm3State}
    (absorbed : Sm3Absorbed stream md) :
    wholeBlocks 64 stream ++ sm3DoneBlocks md =
      wholeBlocks 64 (stream ++ sm3Padding stream.length) := by
  have curlen := absorbed.curlen
  have inside : stream.length % 64 < 64 := Nat.mod_lt _ (by decide)
  have marked : md.buf.set md.curlen 0x80 = md.buf.set (stream.length % 64) 0x80 inside := by
    congr 1
  by_cases long : stream.length % 64 + 1 > 56
  · -- the marker and zeros close the open block; the length has the next one
    let marker : List UInt8 := 0x80 :: List.replicate (63 - stream.length % 64) 0
    have full : stream.length % 64 + marker.length = 64 := by
      simp [marker]
      omega
    have aligned : (stream ++ marker).length % 64 = 0 := by
      rw [List.length_append]
      omega
    have zeros : (119 - stream.length % 64) % 64 = (63 - stream.length % 64) + 56 := by omega
    have split : stream ++ sm3Padding stream.length = (stream ++ marker) ++
        (List.replicate 56 0 ++
          (List.replicate 4 0 ++ beBytes 4 (8 * stream.length % 2 ^ 32))) := by
      simp [marker, sm3Padding, zeros, List.replicate_add]
    have last := lastBlock
      (pending_of_full (bigEndian (blockAt 64 (stream ++ marker) (stream.length / 64)))
        (by decide) full)
      (by omega) (md.length + md.curlen.val.toUInt32 <<< 3)
    rw [aligned, absorbed.bitLength, wholeBlocks_append_of_full (by decide) full,
      List.append_assoc] at last
    rw [split, ← last, sm3DoneBlocks, marked, curlen]
    simp only [if_pos long, marker_complete absorbed.pending inside, marker, List.cons_append,
      List.nil_append]
  · -- the length fits behind the marker
    have room : stream.length % 64 + 1 < 64 := by omega
    have lengths : (stream ++ [(0x80 : UInt8)]).length % 64 = stream.length % 64 + 1 := by
      rw [List.length_append, List.length_singleton]
      omega
    have zeros : (119 - stream.length % 64) % 64 = 56 - (stream.length % 64 + 1) := by omega
    have split : stream ++ sm3Padding stream.length = (stream ++ [0x80]) ++
        (List.replicate (56 - (stream.length % 64 + 1)) 0 ++
          (List.replicate 4 0 ++ beBytes 4 (8 * stream.length % 2 ^ 32))) := by
      simp [sm3Padding, zeros]
    have pending : Pending (stream ++ [0x80]) (md.buf.set (stream.length % 64) 0x80 inside) :=
      absorbed.pending.concat_of_unfilled room
    have last := lastBlock pending (by omega) (md.length + md.curlen.val.toUInt32 <<< 3)
    rw [lengths, absorbed.bitLength, wholeBlocks_concat_of_unfilled _ room] at last
    rw [split, ← last, sm3DoneBlocks, marked, curlen]
    simp only [if_neg long]

theorem Sm3Absorbed.done {stream : List UInt8} {md : Sm3State}
    (absorbed : Sm3Absorbed stream md) :
    sm3Done md =
      sm3Digest (chainBlocks compressBlock (stream ++ sm3Padding stream.length) sm3Iv) := by
  rw [sm3Done_eq_compressBlocks, absorbed.state, chainBlocks_eq_foldl, chainBlocks_eq_foldl,
    ← absorbed.doneBlocks, List.foldl_append]
  rfl

def sm3Hash (message : List UInt8) : Bytes 32 := sm3_256 (Vector.replicate 64 0) message

@[simp] theorem sm3_256_eq (staleBuf : Bytes 64) (message : List UInt8) :
    sm3_256 staleBuf message = sm3Hash message := by
  have absorbed : ∀ buf : Bytes 64, Sm3Absorbed message (sm3Process (sm3Init buf) message) :=
    fun buf => (sm3Absorbed_init buf).process message
  rw [sm3Hash, sm3_256, sm3_256, (absorbed _).done, (absorbed _).done]

end Penglai.Gm

import Penglai.Gm.Sm3

namespace Penglai.Gm

/-! # The blocks an SM3 computation compresses

`SM3_compress` is called on the block buffer, from one place in `SM3_process` and two
in `SM3_done`. The listed buffers drive the hash. -/

def compressBlocks (blocks : List (Bytes 64)) (v : Vector UInt32 8) : Vector UInt32 8 :=
  blocks.foldl (fun chaining block => compressBlock block chaining) v

theorem compressBlocks_append (front back : List (Bytes 64)) (v : Vector UInt32 8) :
    compressBlocks (front ++ back) v = compressBlocks back (compressBlocks front v) :=
  List.foldl_append

theorem sm3ProcessByte_of_room {md : Sm3State} (room : md.curlen.val + 1 < 64) (byte : UInt8) :
    sm3ProcessByte md byte =
        { md with buf := md.buf.set md.curlen byte, curlen := ⟨md.curlen.val + 1, room⟩ } ∧
      sm3ByteBlocks md byte = [] := by
  rw [sm3ProcessByte, sm3ByteBlocks, dif_pos room, if_pos room]
  exact ⟨rfl, rfl⟩

theorem sm3ProcessByte_of_full {md : Sm3State} (full : ¬md.curlen.val + 1 < 64) (byte : UInt8) :
    sm3ProcessByte md byte =
        { state := compressBlock (md.buf.set md.curlen byte) md.state
          length := md.length + 512
          curlen := 0
          buf := bigEndian (md.buf.set md.curlen byte) } ∧
      sm3ByteBlocks md byte = [md.buf.set md.curlen byte] := by
  rw [sm3ProcessByte, sm3ByteBlocks, dif_neg full, if_neg full]
  exact ⟨rfl, rfl⟩

theorem sm3ProcessByte_state (md : Sm3State) (byte : UInt8) :
    (sm3ProcessByte md byte).state = compressBlocks (sm3ByteBlocks md byte) md.state := by
  by_cases room : md.curlen.val + 1 < 64
  · rw [(sm3ProcessByte_of_room room byte).1, (sm3ProcessByte_of_room room byte).2]
    rfl
  · rw [(sm3ProcessByte_of_full room byte).1, (sm3ProcessByte_of_full room byte).2]
    rfl

theorem sm3Process_state (md : Sm3State) (bytes : List UInt8) :
    (sm3Process md bytes).state = compressBlocks (sm3ProcessBlocks md bytes) md.state := by
  induction bytes generalizing md with
  | nil => rfl
  | cons byte rest induction =>
      rw [sm3ProcessBlocks, compressBlocks_append, ← sm3ProcessByte_state]
      exact induction (sm3ProcessByte md byte)

theorem sm3Done_eq_compressBlocks (md : Sm3State) :
    sm3Done md = sm3Digest (compressBlocks (sm3DoneBlocks md) md.state) := by
  by_cases long : md.curlen.val + 1 > 56
  · simp only [sm3Done, sm3DoneBlocks, if_pos long]
    rfl
  · simp only [sm3Done, sm3DoneBlocks, if_neg long]
    rfl

theorem sm3ProcessBlocks_append (md : Sm3State) (front back : List UInt8) :
    sm3ProcessBlocks md (front ++ back) =
      sm3ProcessBlocks md front ++ sm3ProcessBlocks (sm3Process md front) back := by
  induction front generalizing md with
  | nil => rfl
  | cons byte rest induction =>
      rw [List.cons_append, sm3ProcessBlocks, induction, sm3ProcessBlocks, List.append_assoc]
      rfl

end Penglai.Gm

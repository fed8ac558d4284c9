import Penglai.Foundation.Loop

namespace Penglai

/-! # Buffered absorption of a stream in blocks

A streaming hash keeps a chaining value and a buffer of `rate` cells. Its state
after a stream is the chaining value of the complete blocks together with the
items after the last complete block, which lie at the front of the buffer. -/

universe u v

variable {α : Type u} {σ : Type v} {rate : Nat} [Inhabited α]

def blockAt (rate : Nat) (stream : List α) (index : Nat) : Vector α rate :=
  Vector.ofFn fun position => stream.getD (rate * index + position.val) default

def chainBlocks (compress : Vector α rate → σ → σ) (stream : List α) (initial : σ) : σ :=
  forRange 0 (stream.length / rate)
    (fun index chaining => compress (blockAt rate stream index) chaining) initial

/-- The items after the last complete block lie at the front of the buffer;
the other cells are arbitrary. -/
def Pending (stream : List α) (buffer : Vector α rate) : Prop :=
  ∀ position : Fin rate, position.val < stream.length % rate →
    buffer[position] =
      stream.getD (rate * (stream.length / rate) + position.val) default

theorem pending_nil (buffer : Vector α rate) : Pending [] buffer := by
  intro position live
  simp at live

theorem blockAt_append {stream more : List α} {index : Nat}
    (complete : index < stream.length / rate) :
    blockAt rate (stream ++ more) index = blockAt rate stream index := by
  apply Vector.ext
  intro position inside
  have positive : 0 < rate := by omega
  have blocksFit : rate * (index + 1) ≤ stream.length :=
    (Nat.mul_le_mul_left rate complete).trans (Nat.mul_div_le stream.length rate)
  have bound : rate * index + position < stream.length := by
    rw [Nat.mul_succ] at blocksFit
    omega
  simp [blockAt, List.getElem?_append_left bound]

/-! ## Cutting and joining -/

omit [Inhabited α] in
theorem length_flatMap_toList (blocks : List (Vector α rate)) :
    (blocks.flatMap fun block => block.toList).length = rate * blocks.length := by
  induction blocks with
  | nil => rfl
  | cons block blocks induction =>
      rw [List.flatMap_cons, List.length_append, induction, Vector.length_toList,
        List.length_cons, Nat.mul_succ, Nat.add_comm]

omit [Inhabited α] in
theorem length_flatMap_blocks (block : Nat → Vector α rate) (count : Nat) :
    ((List.range count).flatMap fun index => (block index).toList).length = rate * count := by
  have length := length_flatMap_toList ((List.range count).map block)
  rwa [List.flatMap_map, List.length_map, List.length_range] at length

theorem blockAt_flatMap (block : Nat → Vector α rate) {count index : Nat}
    (inside : index < count) (tail : List α) :
    blockAt rate (((List.range count).flatMap fun index => (block index).toList) ++ tail) index =
      block index := by
  induction count generalizing tail with
  | zero => omega
  | succ count induction =>
      rw [List.range_succ, List.flatMap_append, List.append_assoc]
      rcases Nat.lt_succ_iff_lt_or_eq.mp inside with earlier | last
      · exact induction earlier _
      · subst last
        apply Vector.ext
        intro position bound
        have joined := length_flatMap_blocks block index
        have past : ((List.range index).flatMap fun index => (block index).toList).length ≤
            rate * index + position := by omega
        simp [blockAt, List.getElem?_append_right past, joined,
          List.getElem?_append_left, bound]

theorem flatMap_blockAt (stream : List α) {count : Nat} (fits : rate * count ≤ stream.length) :
    ((List.range count).flatMap fun index => (blockAt rate stream index).toList) =
      stream.take (rate * count) := by
  induction count with
  | zero => simp
  | succ count induction =>
      rw [Nat.mul_succ] at fits ⊢
      have block : (blockAt rate stream count).toList =
          (stream.drop (rate * count)).take rate := by
        apply List.ext_getElem
        · simp
          omega
        · intro position inside _
          have present : rate * count + position < stream.length := by
            simp at inside
            omega
          simp [blockAt, present]
      rw [List.range_succ, List.flatMap_append, induction (by omega), List.take_add]
      simp [block]

/-! ## The complete blocks -/

def wholeBlocks (rate : Nat) (stream : List α) : List (Vector α rate) :=
  (List.range (stream.length / rate)).map (blockAt rate stream)

theorem chainBlocks_eq_foldl (compress : Vector α rate → σ → σ) (stream : List α) (initial : σ) :
    chainBlocks compress stream initial =
      (wholeBlocks rate stream).foldl (fun chaining block => compress block chaining) initial := by
  rw [chainBlocks, wholeBlocks, List.foldl_map]
  induction stream.length / rate with
  | zero => rfl
  | succ count induction =>
      rw [forRange_succ, induction, Nat.zero_add, List.range_succ, List.foldl_concat]

theorem flatMap_wholeBlocks {stream : List α} (aligned : stream.length % rate = 0) :
    ((wholeBlocks rate stream).flatMap fun block => block.toList) = stream := by
  have whole : rate * (stream.length / rate) = stream.length :=
    Nat.mul_div_cancel' (Nat.dvd_of_mod_eq_zero aligned)
  rw [wholeBlocks, List.flatMap_map, flatMap_blockAt stream whole.le, whole, List.take_length]

/-! ## One more item -/

private theorem succ_div_mod_of_unfilled {length : Nat} (room : length % rate + 1 < rate) :
    (length + 1) / rate = length / rate ∧ (length + 1) % rate = length % rate + 1 := by
  have positive : 0 < rate := by omega
  have split := Nat.div_add_mod length rate
  refine (Nat.div_mod_unique positive).mpr ⟨?_, room⟩
  omega

private theorem add_div_mod_of_full {length more : Nat} (positive : 0 < rate)
    (full : length % rate + more = rate) :
    (length + more) / rate = length / rate + 1 ∧ (length + more) % rate = 0 := by
  have split := Nat.div_add_mod length rate
  refine (Nat.div_mod_unique positive).mpr ⟨?_, positive⟩
  rw [Nat.mul_succ]
  omega

private theorem map_blockAt_append (stream more : List α) :
    (List.range (stream.length / rate)).map (blockAt rate (stream ++ more)) =
      wholeBlocks rate stream := by
  apply List.map_congr_left
  intro index inside
  exact blockAt_append (List.mem_range.mp inside)

theorem wholeBlocks_concat_of_unfilled {stream : List α} (item : α)
    (room : stream.length % rate + 1 < rate) :
    wholeBlocks rate (stream ++ [item]) = wholeBlocks rate stream := by
  rw [wholeBlocks, List.length_append, List.length_singleton, (succ_div_mod_of_unfilled room).1,
    map_blockAt_append]

theorem Pending.concat_of_unfilled {stream : List α} {buffer : Vector α rate} {item : α}
    (pending : Pending stream buffer) (room : stream.length % rate + 1 < rate) :
    Pending (stream ++ [item]) (buffer.set (stream.length % rate) item (by omega)) := by
  intro position live
  have lengths := succ_div_mod_of_unfilled room
  have split := Nat.div_add_mod stream.length rate
  rw [List.length_append, List.length_singleton, lengths.2] at live
  rw [List.length_append, List.length_singleton, lengths.1, Fin.getElem_fin, Vector.getElem_set]
  by_cases newest : stream.length % rate = position.val
  · rw [if_pos newest, ← newest, split]
    simp
  · have older : position.val < stream.length % rate := by omega
    have inside : rate * (stream.length / rate) + position.val < stream.length := by omega
    rw [if_neg newest]
    simpa [List.getElem?_append_left inside] using pending position older

/-! ## Completing a block -/

theorem wholeBlocks_append_of_full {stream items : List α} (positive : 0 < rate)
    (full : stream.length % rate + items.length = rate) :
    wholeBlocks rate (stream ++ items) =
      wholeBlocks rate stream ++ [blockAt rate (stream ++ items) (stream.length / rate)] := by
  rw [wholeBlocks, List.length_append, (add_div_mod_of_full positive full).1, List.range_succ,
    List.map_append, map_blockAt_append, List.map_singleton]

theorem wholeBlocks_flatMap (positive : 0 < rate) (blocks : List (Vector α rate)) :
    wholeBlocks rate (blocks.flatMap fun block => block.toList) = blocks := by
  induction blocks using List.reverseRecOn with
  | nil => simp [wholeBlocks]
  | append_singleton blocks block induction =>
      have joined := length_flatMap_toList blocks
      have full : (blocks.flatMap fun block => block.toList).length % rate +
          block.toList.length = rate := by
        rw [joined, Nat.mul_mod_right, Vector.length_toList, Nat.zero_add]
      have last : blockAt rate ((blocks.flatMap fun block => block.toList) ++ block.toList)
          ((blocks.flatMap fun block => block.toList).length / rate) = block := by
        rw [joined, Nat.mul_div_cancel_left _ positive]
        apply Vector.ext
        intro position inside
        simp [blockAt, joined]
      rw [List.flatMap_append, List.flatMap_singleton, wholeBlocks_append_of_full positive full,
        induction, last]

theorem Pending.complete {stream items : List α} {buffer filled : Vector α rate}
    (pending : Pending stream buffer)
    (full : stream.length % rate + items.length = rate)
    (kept : ∀ position : Fin rate, position.val < stream.length % rate →
      filled[position] = buffer[position])
    (written : ∀ position : Fin rate, stream.length % rate ≤ position.val →
      filled[position] = items.getD (position.val - stream.length % rate) default) :
    filled = blockAt rate (stream ++ items) (stream.length / rate) := by
  apply Vector.ext
  intro position bound
  have split := Nat.div_add_mod stream.length rate
  rw [blockAt, Vector.getElem_ofFn]
  by_cases older : position < stream.length % rate
  · have present : rate * (stream.length / rate) + position < stream.length := by omega
    have same := (kept ⟨position, bound⟩ older).trans (pending ⟨position, bound⟩ older)
    simpa [List.getElem?_append_left present] using same
  · have past : stream.length ≤ rate * (stream.length / rate) + position := by omega
    have offset : rate * (stream.length / rate) + position - stream.length =
        position - stream.length % rate := by omega
    have new := written ⟨position, bound⟩ (Nat.le_of_not_lt older)
    simpa [List.getElem?_append_right past, offset] using new

theorem pending_of_full {stream items : List α} (buffer : Vector α rate)
    (positive : 0 < rate) (full : stream.length % rate + items.length = rate) :
    Pending (stream ++ items) buffer := by
  intro position live
  rw [List.length_append, (add_div_mod_of_full positive full).2] at live
  omega

end Penglai

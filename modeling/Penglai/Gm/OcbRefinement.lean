import Mathlib.NumberTheory.Padics.PadicVal.Basic
import Penglai.Gm.OcbBits

namespace Penglai.Gm

/-! # The OCB code against the mode

`SM4_OCB_Encrypt` and `SM4_OCB_Decrypt` compute OCB3 over SM4. Each loop has one
lemma saying what it leaves in the buffers; the two main results put them
together. -/

open Ocb (ofBytes toBytes)

/-! ## Index arithmetic -/

theorem ocbNtz_eq_ntz {number : Nat} (positive : 0 < number) (bound : number < 2 ^ 32) :
    ocbNtz number = Ocb.ntz number := by
  rcases Nat.exists_eq_two_pow_mul_odd positive.ne' with ⟨zeros, odd, isOdd, factored⟩
  have value : Ocb.ntz number = zeros := by
    have oddVal : padicValNat 2 odd = 0 :=
      padicValNat.eq_zero_of_not_dvd (Nat.two_dvd_ne_zero.mpr (Nat.odd_iff.mp isOdd))
    rw [Ocb.ntz, factored, padicValNat.mul (by positivity) isOdd.pos.ne', oddVal,
      padicValNat.prime_pow]
    rfl
  have small : zeros < 32 := by
    by_contra large
    have tooBig : 2 ^ 32 ≤ 2 ^ zeros * odd :=
      (Nat.pow_le_pow_right (by decide) (by omega)).trans (Nat.le_mul_of_pos_right _ isOdd.pos)
    omega
  have found : (List.range 32).find? (fun bit => number.testBit bit) = some zeros := by
    rw [List.find?_range_eq_some]
    refine ⟨?_, by simpa using small, ?_⟩
    · rw [factored, Nat.testBit_two_pow_mul]
      simpa [Nat.testBit_zero] using Nat.odd_iff.mp isOdd
    · intro bit before
      rw [factored, Nat.testBit_two_pow_mul]
      simp
      omega
  rw [ocbNtz, found, value]
  rfl

theorem ntz_le_log2 {number count : Nat} (positive : 0 < number) (bound : number ≤ count) :
    Ocb.ntz number ≤ count.log2 := by
  have divides : 2 ^ Ocb.ntz number ∣ number := pow_padicValNat_dvd
  exact (Nat.le_log2 (by omega)).mpr ((Nat.le_of_dvd positive divides).trans bound)

theorem ocbNtzRoundSucc_eq {count : Nat} (positive : 0 < count) (bound : count < 2 ^ 32) :
    ocbNtzRoundSucc count = count.log2 + 1 := by
  have small : count.log2 < 32 := (Nat.log2_lt positive.ne').mpr bound
  rw [ocbNtzRoundSucc, if_neg positive.ne']
  omega

def ocbLLength (messageLength associatedDataLength : Nat) : Nat :=
  if messageLength > associatedDataLength then ocbNtzRoundSucc (messageLength / 16)
  else ocbNtzRoundSucc (associatedDataLength / 16)

theorem ocbLLength_eq {messageLength associatedDataLength : Nat}
    (messageBound : messageLength < 2 ^ 31) (associatedBound : associatedDataLength < 2 ^ 31)
    (hasBlock : 16 ≤ messageLength ∨ 16 ≤ associatedDataLength) :
    ∃ longest, messageLength / 16 ≤ longest ∧ associatedDataLength / 16 ≤ longest ∧
      ocbLLength messageLength associatedDataLength = longest.log2 + 1 ∧ longest < 2 ^ 32 := by
  by_cases longer : messageLength > associatedDataLength
  · exact ⟨messageLength / 16, by omega, by omega,
      (if_pos longer).trans (ocbNtzRoundSucc_eq (by omega) (by omega)), by omega⟩
  · exact ⟨associatedDataLength / 16, by omega, by omega,
      (if_neg longer).trans (ocbNtzRoundSucc_eq (by omega) (by omega)), by omega⟩

theorem fullBlockLength_eq (length : Nat) : length ^^^ (length % 16) = 16 * (length / 16) := by
  apply Nat.eq_of_testBit_eq
  intro position
  rw [show (16 : Nat) = 2 ^ 4 by rfl, Nat.testBit_xor, Nat.testBit_mod_two_pow,
    Nat.testBit_two_pow_mul, Nat.testBit_div_two_pow]
  by_cases low : position < 4
  · simp [low]
  · have index : position - 4 + 4 = position := by omega
    simp [low, index, Nat.le_of_not_lt low]

/-! ## Set-up -/

/-- The entries that loops over `count` blocks look up. -/
def TableFor (key : Bytes 16) (l : List (Bytes 16)) (count : Nat) : Prop :=
  ∀ index < count, ∃ entry, l[ocbNtz (index + 1)]? = some entry ∧
    ofBytes entry = Ocb.lAt (sm4Cipher key) (Ocb.ntz (index + 1))

theorem ofBytes_lAsterisk (key : Bytes 16) :
    ofBytes (sm4Encrypt key zeroBlock) = Ocb.lStar (sm4Cipher key) := by
  rw [← sm4Cipher_ofBytes, ofBytes_zeroBlock, Ocb.lStar]

private def Doublings (key : Bytes 16) (count : Nat) (l : List (Bytes 16)) : Prop :=
  l.length = count ∧ ∀ index < count, ∃ entry, l[index]? = some entry ∧
    ofBytes entry = Ocb.lAt (sm4Cipher key) index

private theorem Doublings.succ {key : Bytes 16} {count : Nat} {l : List (Bytes 16)}
    (doublings : Doublings key (count + 1) l) :
    Doublings key (count + 2) (l ++ [doubleArr (l.getD count zeroBlock)]) := by
  rcases doublings with ⟨length, entries⟩
  refine ⟨by rw [List.length_append, length, List.length_singleton], ?_⟩
  intro index inside
  rcases Nat.lt_succ_iff_lt_or_eq.mp inside with earlier | last
  · rcases entries index earlier with ⟨entry, found, value⟩
    exact ⟨entry, by rw [List.getElem?_append_left (by omega), found], value⟩
  · rcases entries count (by omega) with ⟨entry, found, value⟩
    refine ⟨doubleArr entry, ?_, ?_⟩
    · rw [last, List.getElem?_append_right (by omega), length, List.getD_eq_getElem?_getD, found]
      simp
    · rw [ofBytes_doubleArr, value, last, Ocb.lAt]

private theorem ocbTable_spec (key : Bytes 16) {l0 : Bytes 16}
    (first : ofBytes l0 = Ocb.lAt (sm4Cipher key) 0) (more : Nat) :
    ∃ l, ocbTable l0 (more + 1) = some l ∧ Doublings key (more + 1) l := by
  refine ⟨_, by rw [ocbTable, if_neg (by omega)], ?_⟩
  refine forRange_invariant (fun done l => Doublings key (done + 1) l) ?_ more ?_
  · refine ⟨rfl, fun index inside => ⟨l0, ?_, ?_⟩⟩
    · rw [Nat.lt_one_iff.mp inside]
      rfl
    · rw [Nat.lt_one_iff.mp inside, first]
  · intro done bound l before
    have previous : 1 + done - 1 = done := by omega
    rw [previous]
    exact before.succ

private theorem Doublings.tableFor {key : Bytes 16} {count blocks : Nat} {l : List (Bytes 16)}
    (doublings : Doublings key (count.log2 + 1) l) (bound : blocks ≤ count)
    (small : count < 2 ^ 32) : TableFor key l blocks := by
  intro index inside
  have covered := ntz_le_log2 (show 0 < index + 1 by omega) (show index + 1 ≤ count by omega)
  rw [ocbNtz_eq_ntz (by omega) (by omega)]
  exact doublings.2 _ (by omega)

/-- What the set-up provides for a message and associated data of the given
numbers of whole blocks. -/
structure SetupFor (key : Bytes 16) (nonce : List UInt8) (messageBlocks associatedBlocks : Nat)
    (setup : OcbSetup) : Prop where
  messageTable : TableFor key setup.l messageBlocks
  associatedTable : TableFor key setup.l associatedBlocks
  lAsterisk : ofBytes setup.lAsterisk = Ocb.lStar (sm4Cipher key)
  lDollar : ofBytes setup.lDollar = Ocb.lDollar (sm4Cipher key)
  offset : ofBytes setup.offset = Ocb.initialOffset (sm4Cipher key) nonce

theorem ocbSetup_spec (key : Bytes 16) {nonce : List UInt8} (short : nonce.length ≤ 15)
    {messageLength associatedDataLength : Nat}
    (messageBound : messageLength < 2 ^ 31) (associatedBound : associatedDataLength < 2 ^ 31)
    (hasBlock : 16 ≤ messageLength ∨ 16 ≤ associatedDataLength) :
    ∃ setup, ocbSetup key nonce messageLength associatedDataLength = some setup ∧
      SetupFor key nonce (messageLength / 16) (associatedDataLength / 16) setup := by
  rcases ocbLLength_eq messageBound associatedBound hasBlock with
    ⟨longest, blocksLe, sizeLe, tableSize, small⟩
  rw [ocbLLength] at tableSize
  have lAsterisk := ofBytes_lAsterisk key
  have lDollar : ofBytes (doubleArr (sm4Encrypt key zeroBlock)) =
      Ocb.lDollar (sm4Cipher key) := by
    rw [ofBytes_doubleArr, lAsterisk, Ocb.lDollar]
  rcases ocbTable_spec key
    (show ofBytes (doubleArr (doubleArr (sm4Encrypt key zeroBlock))) =
      Ocb.lAt (sm4Cipher key) 0 by rw [ofBytes_doubleArr, lDollar, Ocb.lAt]) longest.log2 with
    ⟨l, table, doublings⟩
  rcases formatNonce_spec short with ⟨offset, formatted, bytes⟩
  refine ⟨⟨l, sm4Encrypt key zeroBlock, doubleArr (sm4Encrypt key zeroBlock),
    firstBlock (nonceOffset key offset)⟩, ?_, ?_⟩
  · simp only [ocbSetup, tableSize, table, formatted, Option.bind_eq_bind, Option.bind_some,
      firstBlock]
  · exact
      { messageTable := doublings.tableFor blocksLe small
        associatedTable := doublings.tableFor sizeLe small
        lAsterisk := lAsterisk
        lDollar := lDollar
        offset := ofBytes_nonceOffset key short bytes }

/-! ## Whole blocks -/

/-- After `done` iterations: the offset, the blocks masked so far, and the rest
of the buffer as it was in `out`. -/
structure BlocksDone (key : Bytes 16) (F : Ocb.Block → Ocb.Block) (start : Ocb.Block)
    (out : Buffer) (done : Nat) (state : Bytes 16 × Buffer) : Prop where
  offset : ofBytes state.1 = Ocb.offsetAt (sm4Cipher key) start done
  masked : ∀ index < done, ofBytes (state.2.block 16 (16 * index)) =
    Ocb.masked F (Ocb.offsetAt (sm4Cipher key) start (index + 1))
      (ofBytes (out.block 16 (16 * index)))
  untouched : ∀ index, 16 * done ≤ index → state.2.get index = out.get index

theorem BlocksDone.step {key : Bytes 16} {cipher : Bytes 16 → Bytes 16}
    {F : Ocb.Block → Ocb.Block} {start : Ocb.Block} {out : Buffer} {done : Nat}
    {state : Bytes 16 × Buffer} {entry : Bytes 16}
    (before : BlocksDone key F start out done state)
    (implements : ∀ block, ofBytes (cipher block) = F (ofBytes block))
    (value : ofBytes entry = Ocb.lAt (sm4Cipher key) (Ocb.ntz (done + 1))) :
    BlocksDone key F start out (done + 1)
      (xor16 state.1 entry, ocbBlock cipher (xor16 state.1 entry) state.2 (done * 16)) := by
  have offset : ofBytes (xor16 state.1 entry) =
      Ocb.offsetAt (sm4Cipher key) start (done + 1) := by
    rw [ofBytes_xor16, before.offset, value, Ocb.offsetAt]
  rw [ocbBlock_eq, Nat.mul_comm done 16]
  constructor
  · exact offset
  · intro index inside
    rcases Nat.lt_succ_iff_lt_or_eq.mp inside with earlier | current
    · rw [Buffer.block_write_of_disjoint (Or.inl (by omega)), before.masked index earlier]
    · have same : state.2.block 16 (16 * done) = out.block 16 (16 * done) :=
        Buffer.block_congr fun index from_ _ => before.untouched index from_
      rw [current, Buffer.block_write_self, same, ofBytes_xor16, implements, ofBytes_xor16,
        offset, Ocb.masked, BitVec.xor_comm]
  · intro index past
    rw [Buffer.get_write_of_ge (by omega), before.untouched index (by omega)]

theorem ocbBlocks_spec {key : Bytes 16} {l : List (Bytes 16)} {m : Nat}
    (table : TableFor key l m) {cipher : Bytes 16 → Bytes 16} {F : Ocb.Block → Ocb.Block}
    (implements : ∀ block, ofBytes (cipher block) = F (ofBytes block))
    (offset : Bytes 16) (out : Buffer) :
    ∃ state, ocbBlocks cipher l m offset out = some state ∧
      BlocksDone key F (ofBytes offset) out m state := by
  refine forRangeM_invariant (BlocksDone key F (ofBytes offset) out) ?_ m ?_
  · exact
      { offset := rfl
        masked := fun index inside => absurd inside (Nat.not_lt_zero index)
        untouched := fun _ _ => rfl }
  · intro done bound state before
    rcases table done bound with ⟨entry, found, value⟩
    refine ⟨_, ?_, before.step implements value⟩
    simp [found]

/-! ## Checksum -/

private theorem checksum_block (text : Nat → UInt8) (count : Nat) (start : Bytes 16) :
    forRange (16 * count) 16
        (fun i checksum => checksum.set! (i % 16) (checksum[i % 16]! ^^^ text i)) start =
      xor16 start (Vector.ofFn fun k => text (16 * count + k.val)) := by
  apply Vector.ext
  intro cell inside
  have injective : ∀ i < 16, ∀ j < 16,
      (16 * count + i) % 16 = (16 * count + j) % 16 → i = j := by omega
  have readsAhead : ReadsAhead (16 * count) (· % 16)
      (fun i (checksum : Bytes 16) => checksum[i % 16]! ^^^ text i) start 16 := by
    intro done bound state agree
    have here := agree ((16 * count + done) % 16)
      (fun earlier before => by simp only; omega)
    simp only [here]
  have target : (16 * count + cell) % 16 = cell := by omega
  have stored := getElem!_forRange_set readsAhead injective inside
    (show (16 * count + cell) % 16 < 16 by omega)
  rw [target, getElem!_pos _ cell inside, getElem!_pos _ cell inside] at stored
  rw [stored]
  simp [xor16]

theorem ofBytes_ocbChecksum {text : Nat → UInt8} {plain : List UInt8} {count : Nat}
    (agree : ∀ index < 16 * count, text index = plain.getD index 0) :
    ofBytes (ocbChecksum text (16 * count)) = Ocb.checksum plain count := by
  rw [ocbChecksum]
  induction count with
  | zero => exact ofBytes_zeroBlock
  | succ count induction =>
      have block : (Vector.ofFn fun k : Fin 16 => text (16 * count + k.val)) =
          blockAt 16 plain count := by
        apply Vector.ext
        intro cell inside
        rw [Vector.getElem_ofFn, blockAt, Vector.getElem_ofFn, agree _ (by simp only; omega)]
        rfl
      rw [Nat.mul_succ, forRange_add, Nat.zero_add, checksum_block, ofBytes_xor16,
        induction (fun index inside => agree index (by omega)), block, Ocb.checksum, Ocb.blockOf]

private theorem padded_getElem (last : List UInt8) {cell : Nat} (inside : cell < 16) :
    (Vector.ofFn fun position : Fin 16 => (last ++ [0x80]).getD position.val 0)[cell] =
      if last.length = cell then 0x80 else last.getD cell 0 := by
  rw [Vector.getElem_ofFn, getD_concat]

theorem ofBytes_checksumRest (text : Nat → UInt8) {last : List UInt8}
    (short : last.length < 16) (agree : ∀ index < last.length, text index = last.getD index 0)
    (checksum : Bytes 16) :
    let summed := forRange 0 last.length
      (fun i checksum => checksum.set! i (checksum[i]! ^^^ text i)) checksum
    ofBytes (summed.set! last.length (summed[last.length]! ^^^ 0x80)) =
      ofBytes checksum ^^^ Ocb.padded last := by
  intro summed
  have cells : ∀ cell < 16, summed[cell]! =
      if cell < last.length then checksum[cell]! ^^^ last.getD cell 0 else checksum[cell]! := by
    intro cell inside
    simp only [summed]
    rw [getElem!_forRange_set_here]
    · by_cases covered : cell < last.length
      · rw [if_pos (by omega), if_pos covered, agree cell covered]
      · rw [if_neg (by omega), if_neg covered]
    · intro done bound state same
      rw [same (0 + done) (by omega)]
  rw [Ocb.padded, ← ofBytes_xor16]
  congr 1
  apply Vector.ext
  intro cell inside
  rw [← getElem!_pos _ cell inside, getElem!_set!, cells cell inside, cells _ short, xor16,
    Vector.getElem_zipWith, padded_getElem, getElem!_pos checksum cell inside]
  rcases Nat.lt_trichotomy cell last.length with before | here | past
  · rw [if_neg (by omega), if_pos before, if_neg (by omega)]
  · subst here
    rw [if_pos ⟨rfl, short⟩, if_neg (lt_irrefl _), if_pos rfl, getElem!_pos checksum _ inside]
  · have beyond : last.getD cell 0 = 0 := by
      simp [past.le]
    rw [if_neg (by omega), if_neg (by omega), if_neg (by omega), beyond, UInt8.xor_zero]

/-! ## Associated data -/

private theorem padInPlace (text : Nat → UInt8) {last : List UInt8} (short : last.length < 16)
    (agree : ∀ index < last.length, text index = last.getD index 0) (stale : Bytes 16) :
    ofBytes (forRange (last.length + 1) (15 - last.length) (fun i temp => temp.set! i 0)
      ((forRange 0 last.length (fun i temp => temp.set! i (text i)) stale).set!
        last.length 0x80)) =
      Ocb.padded last := by
  rw [Ocb.padded]
  congr 1
  apply Vector.ext
  intro cell inside
  rw [← getElem!_pos _ cell inside, getElem!_forRange_set_here (fun _ _ _ _ => rfl),
    getElem!_set!, getElem!_forRange_set_here (fun _ _ _ _ => rfl), padded_getElem]
  rcases Nat.lt_trichotomy cell last.length with before | here | past
  · rw [if_neg (by omega), if_neg (by omega), if_pos (by omega), if_neg (by omega),
      agree cell before]
  · subst here
    rw [if_neg (by omega), if_pos ⟨rfl, inside⟩, if_pos rfl]
  · have beyond : last.getD cell 0 = 0 := by
      simp [past.le]
    rw [if_pos (by omega), if_neg (by omega), beyond]

private structure HashDone (key : Bytes 16) (associatedData : List UInt8) (done : Nat)
    (state : HashState) : Prop where
  offset : ofBytes state.offset = Ocb.offsetAt (sm4Cipher key) 0 done
  sum : ofBytes state.out = Ocb.hashSum (sm4Cipher key) associatedData done

private theorem HashDone.step {key : Bytes 16} {associatedData : List UInt8}
    {l : List (Bytes 16)} {done : Nat} {state : HashState} {entry : Bytes 16}
    (before : HashDone key associatedData done state)
    (found : l[ocbNtz (done + 1)]? = some entry)
    (value : ofBytes entry = Ocb.lAt (sm4Cipher key) (Ocb.ntz (done + 1))) :
    ∃ next, hashBlock key associatedData l done state = some next ∧
      HashDone key associatedData (done + 1) next := by
  have block : (Vector.ofFn fun k : Fin 16 => associatedData.getD (done * 16 + k.val) 0) =
      blockAt 16 associatedData done := by
    rw [blockAt, Nat.mul_comm]
    rfl
  have offset : ofBytes (xor16 state.offset entry) =
      Ocb.offsetAt (sm4Cipher key) 0 (done + 1) := by
    rw [ofBytes_xor16, before.offset, value, Ocb.offsetAt]
  refine ⟨_, by rw [hashBlock, found]; rfl, offset, ?_⟩
  rw [ofBytes_xor16, before.sum, ← sm4Cipher_ofBytes, ofBytes_xor16, offset, block,
    Ocb.hashSum, Ocb.blockOf]

theorem rest_getD (text : List UInt8) (index : Nat) :
    (Ocb.rest text).getD index 0 = text.getD (16 * (text.length / 16) + index) 0 := by
  rw [Ocb.rest, Ocb.blocks]
  simp [List.getElem?_drop]

theorem rest_eq_nil_iff (text : List UInt8) : Ocb.rest text = [] ↔ text.length % 16 = 0 := by
  rw [← List.length_eq_zero_iff, Ocb.rest_length]

theorem ocbHash_spec {key : Bytes 16} {associatedData : List UInt8} {l : List (Bytes 16)}
    {lAsterisk : Bytes 16} (table : TableFor key l (associatedData.length / 16))
    (asterisk : ofBytes lAsterisk = Ocb.lStar (sm4Cipher key)) (stale : Bytes 16) :
    ∃ out, ocbHash key associatedData l lAsterisk stale = some out ∧
      ofBytes out = Ocb.hash (sm4Cipher key) associatedData := by
  obtain ⟨state, succeeds, done⟩ : ∃ state,
      forRangeM 0 (associatedData.length / 16) (hashBlock key associatedData l)
        { offset := zeroBlock, cipherTemp := stale, out := zeroBlock } = some state ∧
      HashDone key associatedData (associatedData.length / 16) state := by
    refine forRangeM_invariant (HashDone key associatedData) ?_ _ ?_
    · exact ⟨ofBytes_zeroBlock, ofBytes_zeroBlock⟩
    · intro done bound state before
      obtain ⟨entry, found, value⟩ := table done bound
      rw [Nat.zero_add]
      exact before.step found value
  by_cases whole : associatedData.length % 16 = 0
  · refine ⟨state.out, ?_, ?_⟩
    · simp [ocbHash, succeeds, whole]
    · rw [Ocb.hash, if_pos ((rest_eq_nil_iff associatedData).mpr whole), done.sum]
      rfl
  · have short : (Ocb.rest associatedData).length < 16 := by
      rw [Ocb.rest_length]
      exact Nat.mod_lt _ (by decide)
    have padded := padInPlace
      (fun i => associatedData.getD (16 * (associatedData.length / 16) + i) 0) short
      (fun index _ => (rest_getD associatedData index).symm) state.cipherTemp
    rw [Ocb.rest_length] at padded
    refine ⟨(hashRest key associatedData lAsterisk (associatedData.length % 16)
      (16 * (associatedData.length / 16)) state).out, ?_, ?_⟩
    · simp only [ocbHash, succeeds, Option.bind_eq_bind, Option.bind_some,
        if_pos (Nat.pos_of_ne_zero whole), fullBlockLength_eq]
    · simp only [hashRest]
      rw [ofBytes_xor16, ← sm4Cipher_ofBytes, ofBytes_xor16, padded, ofBytes_xor16, asterisk,
        done.offset, done.sum, Ocb.hash,
        if_neg (fun none => whole ((rest_eq_nil_iff associatedData).mp none))]
      rfl

/-! ## The tag -/

theorem ocbTag_spec {key : Bytes 16} {nonce associatedData : List UInt8} {messageBlocks : Nat}
    {setup : OcbSetup}
    (setupFor : SetupFor key nonce messageBlocks (associatedData.length / 16) setup)
    (stale checksum offset : Bytes 16) :
    ∃ tag, ocbTag key setup associatedData stale checksum offset = some tag ∧
      ofBytes tag = sm4Cipher key (ofBytes checksum ^^^ ofBytes offset ^^^
        Ocb.lDollar (sm4Cipher key)) ^^^ Ocb.hash (sm4Cipher key) associatedData := by
  rcases ocbHash_spec setupFor.associatedTable setupFor.lAsterisk stale with ⟨hash, hashed, value⟩
  refine ⟨_, by rw [ocbTag, hashed]; rfl, ?_⟩
  rw [ofBytes_xor16, ← sm4Cipher_ofBytes, ofBytes_xor16, ofBytes_xor16, setupFor.lDollar, value]

/-! ## Encryption -/

theorem copied_block (out : Buffer) (text : List UInt8) {index : Nat}
    (whole : index < text.length / 16) :
    (out.copy 0 text).block 16 (16 * index) = blockAt 16 text index := by
  apply Vector.ext
  intro cell inside
  have present : 16 * index + cell < text.length := by omega
  simp [Buffer.block, Buffer.get_copy, blockAt, present]

theorem BlocksDone.bytes_eq {key : Bytes 16} {F : Ocb.Block → Ocb.Block}
    {start : Ocb.Block} {out : Buffer} {state : Bytes 16 × Buffer} {text : List UInt8}
    (done : BlocksDone key F start out (text.length / 16) state)
    (input : ∀ index < text.length / 16, out.block 16 (16 * index) = blockAt 16 text index) :
    state.2.bytes 0 (16 * (text.length / 16)) =
      (List.range (Ocb.blocks text)).flatMap fun index =>
        (toBytes (Ocb.masked F (Ocb.offsetAt (sm4Cipher key) start (index + 1))
          (Ocb.blockOf text index))).toList := by
  rw [Buffer.bytes_eq_flatMap]
  apply List.flatMap_congr
  intro index inside
  have bound : index < text.length / 16 := List.mem_range.mp inside
  rw [Ocb.blockOf, ← input index bound, ← done.masked index bound, Ocb.toBytes_ofBytes]

theorem bytes_xorPad {out : Buffer} {base : Nat} {last : List UInt8} {pad : Bytes 16}
    (short : last.length < 16)
    (agree : ∀ index < last.length,
      out.get (base + index) = pad[index]! ^^^ last.getD index 0) :
    out.bytes base last.length = List.zipWith (· ^^^ ·) last pad.toList := by
  apply List.ext_getElem
  · simp
    omega
  · intro index inside _
    rw [Buffer.bytes_length] at inside
    have value := agree index inside
    rw [getElem!_pos pad index (by omega)] at value
    simp [Buffer.bytes, value, inside, UInt8.xor_comm]

theorem bytes_xorRest {before after : Buffer} {text : List UInt8} {pad : Bytes 16}
    (front : ∀ index < 16 * (text.length / 16), after.get index = before.get index)
    (agree : ∀ index < (Ocb.rest text).length,
      after.get (16 * (text.length / 16) + index) = pad[index]! ^^^ (Ocb.rest text).getD index 0) :
    after.bytes 0 text.length =
      before.bytes 0 (16 * (text.length / 16)) ++
        List.zipWith (· ^^^ ·) (Ocb.rest text) pad.toList := by
  have restLength := Ocb.rest_length text
  have split := Buffer.bytes_add after 0 (16 * (text.length / 16)) (Ocb.rest text).length
  have whole : 16 * (text.length / 16) + (Ocb.rest text).length = text.length := by omega
  have blocks : after.bytes 0 (16 * (text.length / 16)) =
      before.bytes 0 (16 * (text.length / 16)) :=
    Buffer.bytes_congr fun index _ inside => front index (by omega)
  rw [whole, Nat.zero_add] at split
  rw [split, blocks, bytes_xorPad (by omega) agree]

theorem encryptRest_spec {key lAsterisk : Bytes 16} {message : List UInt8} {start : Ocb.Block}
    {state : OcbState}
    (asterisk : ofBytes lAsterisk = Ocb.lStar (sm4Cipher key))
    (offset : ofBytes state.offset =
      Ocb.offsetAt (sm4Cipher key) start (message.length / 16))
    (checksum : ofBytes state.checksum = Ocb.checksum message (message.length / 16))
    (nonempty : message.length % 16 ≠ 0) :
    let after := encryptRest key message lAsterisk (message.length % 16)
      (16 * (message.length / 16)) state
    after.out.bytes 0 message.length =
      state.out.bytes 0 (16 * (message.length / 16)) ++
      List.zipWith (· ^^^ ·) (Ocb.rest message)
        (toBytes (sm4Cipher key (Ocb.offsetAt (sm4Cipher key) start (Ocb.blocks message) ^^^
          Ocb.lStar (sm4Cipher key)))).toList ∧
    (∀ index, message.length + 16 ≤ index → after.out.get index = state.out.get index) ∧
    ofBytes after.checksum ^^^ ofBytes after.offset =
      Ocb.tagSum (sm4Cipher key) start message := by
  intro after
  have restLength := Ocb.rest_length message
  have short : (Ocb.rest message).length < 16 := by omega
  have lastOffset : ofBytes (xor16 state.offset lAsterisk) =
      Ocb.offsetAt (sm4Cipher key) start (Ocb.blocks message) ^^^ Ocb.lStar (sm4Cipher key) := by
    rw [ofBytes_xor16, offset, asterisk]
    rfl
  have cells : ∀ index, after.out.get index =
      if 16 * (message.length / 16) ≤ index ∧
          index < 16 * (message.length / 16) + message.length % 16 then
        (state.out.write (16 * (message.length / 16))
          (sm4Encrypt key (xor16 state.offset lAsterisk))).get index ^^^
          message.getD (16 * (message.length / 16) + (index - 16 * (message.length / 16))) 0
      else (state.out.write (16 * (message.length / 16))
        (sm4Encrypt key (xor16 state.offset lAsterisk))).get index := by
    intro index
    have loop := Buffer.get_forRange_set (16 * (message.length / 16)) (message.length % 16)
      (fun i old => old ^^^ message.getD (16 * (message.length / 16) + i) 0)
      (state.out.write (16 * (message.length / 16))
        (sm4Encrypt key (xor16 state.offset lAsterisk))) index
    simp only [after, encryptRest, Buffer.block_write_self, Buffer.write_write]
    exact loop
  refine ⟨?_, ?_, ?_⟩
  · rw [← lastOffset, sm4Cipher_ofBytes, Ocb.toBytes_ofBytes]
    apply bytes_xorRest
    · intro index inside
      rw [cells, if_neg (by omega), Buffer.get_write_of_lt (by omega)]
    · intro index inside
      have here : 16 * (message.length / 16) + index - 16 * (message.length / 16) = index := by
        omega
      rw [cells, if_pos (by omega), Buffer.get_write_add _ _ _ (by omega), here, ← rest_getD,
        getElem!_pos _ index (by omega)]
  · intro index past
    rw [cells, if_neg (by omega), Buffer.get_write_of_ge (by omega)]
  · have padded := ofBytes_checksumRest
      (fun i => message.getD (16 * (message.length / 16) + i) 0) short
      (fun index _ => (rest_getD message index).symm) state.checksum
    rw [restLength] at padded
    have sum : ofBytes after.checksum =
        Ocb.checksum message (Ocb.blocks message) ^^^ Ocb.padded (Ocb.rest message) := by
      rw [Ocb.blocks, ← checksum]
      exact padded
    rw [sum, Ocb.tagSum,
      if_neg (fun none => nonempty ((rest_eq_nil_iff message).mp none)), ← lastOffset]
    rfl

/-- What either direction has when only the tag is left to make: the text it puts
out, nothing changed from `past` on, and the sum under the tag of `plain`. -/
structure TextDone (key : Bytes 16) (F : Ocb.Block → Ocb.Block) (start : Ocb.Block)
    (text plain : List UInt8) (out : Buffer) (past : Nat) (last : OcbState) : Prop where
  bytes : last.out.bytes 0 text.length = Ocb.body (sm4Cipher key) F start text
  frame : ∀ index, past ≤ index → last.out.get index = out.get index
  sum : ofBytes last.checksum ^^^ ofBytes last.offset = Ocb.tagSum (sm4Cipher key) start plain

section Text

variable {key : Bytes 16} {F : Ocb.Block → Ocb.Block} {start : Ocb.Block}
  {text plain : List UInt8} {out : Buffer} {past : Nat}

theorem textDone_of_rest {state rest : OcbState}
    (blocks : state.out.bytes 0 (16 * (text.length / 16)) =
      (List.range (Ocb.blocks text)).flatMap fun index =>
        (toBytes (Ocb.masked F (Ocb.offsetAt (sm4Cipher key) start (index + 1))
          (Ocb.blockOf text index))).toList)
    (frame : ∀ index, past ≤ index → state.out.get index = out.get index)
    (sum : text.length % 16 = 0 → ofBytes state.checksum ^^^ ofBytes state.offset =
      Ocb.tagSum (sm4Cipher key) start plain)
    (atRest : text.length % 16 ≠ 0 →
      rest.out.bytes 0 text.length = state.out.bytes 0 (16 * (text.length / 16)) ++
        List.zipWith (· ^^^ ·) (Ocb.rest text)
          (toBytes (sm4Cipher key (Ocb.offsetAt (sm4Cipher key) start (Ocb.blocks text) ^^^
            Ocb.lStar (sm4Cipher key)))).toList ∧
      (∀ index, past ≤ index → rest.out.get index = state.out.get index) ∧
      ofBytes rest.checksum ^^^ ofBytes rest.offset =
        Ocb.tagSum (sm4Cipher key) start plain) :
    TextDone key F start text plain out past
      (if text.length % 16 > 0 then rest else state) := by
  by_cases whole : text.length % 16 = 0
  · have restNil := (rest_eq_nil_iff text).mpr whole
    have fullLength : state.out.bytes 0 text.length =
        state.out.bytes 0 (16 * (text.length / 16)) := by
      congr 1
      omega
    rw [if_neg (by omega)]
    refine ⟨?_, frame, sum whole⟩
    rw [Ocb.body, restNil, List.zipWith_nil_left, List.append_nil, ← blocks]
    exact fullLength
  · obtain ⟨bytes, untouched, restSum⟩ := atRest whole
    rw [if_pos (Nat.pos_of_ne_zero whole)]
    refine ⟨?_, ?_, restSum⟩
    · rw [Ocb.body, ← blocks]
      exact bytes
    · intro index beyond
      rw [untouched index beyond, frame index beyond]

theorem TextDone.ocbTag {nonce associatedData : List UInt8} {messageBlocks : Nat}
    {setup : OcbSetup} {last : OcbState} (done : TextDone key F start text plain out past last)
    (setupFor : SetupFor key nonce messageBlocks (associatedData.length / 16) setup)
    (stale : Bytes 16) :
    ocbTag key setup associatedData stale last.checksum last.offset =
      some (toBytes (Ocb.tag (sm4Cipher key) start associatedData plain)) := by
  rcases ocbTag_spec setupFor stale last.checksum last.offset with ⟨tag, tagged, value⟩
  rw [tagged, Ocb.tag, ← done.sum, ← value, Ocb.toBytes_ofBytes]

end Text

/-- `SM4_OCB_Encrypt` writes the OCB3 encryption, and nothing behind it. -/
theorem sm4OcbEncrypt_spec (key : Bytes 16) {nonce message associatedData : List UInt8}
    (short : nonce.length ≤ 15) (messageBound : message.length < 2 ^ 31)
    (associatedBound : associatedData.length < 2 ^ 31)
    (hasBlock : 16 ≤ message.length ∨ 16 ≤ associatedData.length)
    (stale : Bytes 16) (out : Buffer) :
    ∃ after, sm4OcbEncrypt key nonce message associatedData stale out = some after ∧
      after.bytes 0 (message.length + 16) =
        Ocb.encrypt (sm4Cipher key) nonce associatedData message ∧
      ∀ index, message.length + 16 ≤ index → after.get index = out.get index := by
  rcases ocbSetup_spec key short messageBound associatedBound hasBlock with
    ⟨setup, prepared, setupFor⟩
  rcases ocbBlocks_spec setupFor.messageTable
    (fun block => (sm4Cipher_ofBytes key block).symm) setup.offset (out.copy 0 message) with
    ⟨⟨offset, blocksOut⟩, looped, blocksDone⟩
  rw [setupFor.offset] at blocksDone
  let full := 16 * (message.length / 16)
  let state : OcbState := ⟨offset, blocksOut, ocbChecksum (fun i => message.getD i 0) full⟩
  have atOffset : ofBytes state.offset = _ := blocksDone.offset
  have checksum : ofBytes state.checksum = Ocb.checksum message (message.length / 16) :=
    ofBytes_ocbChecksum (fun _ _ => rfl)
  let rest := encryptRest key message setup.lAsterisk (message.length % 16) full state
  have done : TextDone key (sm4Cipher key) (Ocb.initialOffset (sm4Cipher key) nonce) message
      message out (message.length + 16) (if message.length % 16 > 0 then rest else state) := by
    apply textDone_of_rest
    · exact blocksDone.bytes_eq fun index whole => copied_block out message whole
    · intro index past
      rw [blocksDone.untouched index (by omega), Buffer.get_copy_of_ge (by omega)]
    · intro whole
      rw [Ocb.tagSum, if_pos ((rest_eq_nil_iff message).mpr whole), checksum, atOffset]
      rfl
    · intro more
      exact encryptRest_spec setupFor.lAsterisk atOffset checksum more
  let last := if message.length % 16 > 0 then rest else state
  let tag := toBytes (Ocb.tag (sm4Cipher key) (Ocb.initialOffset (sm4Cipher key) nonce)
    associatedData message)
  refine ⟨last.out.write message.length tag, ?_, ?_, ?_⟩
  · have fullLength : full + message.length % 16 = message.length := by omega
    have tagged := done.ocbTag setupFor stale
    simp only [sm4OcbEncrypt, prepared, looped, Option.bind_eq_bind, Option.bind_some,
      fullBlockLength_eq]
    simp only [full, state, rest] at tagged
    rw [tagged]
    simp only [Option.bind_some]
    rw [fullLength]
  · have front : (last.out.write message.length tag).bytes 0 message.length =
        last.out.bytes 0 message.length :=
      Buffer.bytes_congr fun index _ inside => Buffer.get_write_of_lt (by omega)
    rw [Buffer.bytes_add, front, done.bytes, Buffer.bytes_eq_toList, Nat.zero_add,
      Buffer.block_write_self, Ocb.encrypt]
  · intro index past
    rw [Buffer.get_write_of_ge past, done.frame index past]

theorem sm4OcbEncrypt_eq_ocb (key : Bytes 16) {nonce message associatedData : List UInt8}
    (short : nonce.length ≤ 15) (messageBound : message.length < 2 ^ 31)
    (associatedBound : associatedData.length < 2 ^ 31)
    (hasBlock : 16 ≤ message.length ∨ 16 ≤ associatedData.length)
    (stale : Bytes 16) (out : Buffer) :
    ∃ after, sm4OcbEncrypt key nonce message associatedData stale out = some after ∧
      after.bytes 0 (message.length + 16) =
        Ocb.encrypt (sm4Cipher key) nonce associatedData message := by
  rcases sm4OcbEncrypt_spec key short messageBound associatedBound hasBlock stale out with
    ⟨after, encrypted, bytes, _⟩
  exact ⟨after, encrypted, bytes⟩

theorem sm4OcbEncrypt_eq_ocb_seventeen :
    ∃ after, sm4OcbEncrypt zeroBlock [1, 2, 3] (List.replicate 17 7) [] zeroBlock ⟨fun _ => 0⟩ =
        some after ∧
      after.bytes 0 ((List.replicate 17 (7 : UInt8)).length + 16) =
        Ocb.encrypt (sm4Cipher zeroBlock) [1, 2, 3] [] (List.replicate 17 7) :=
  sm4OcbEncrypt_eq_ocb zeroBlock (by decide) (by decide) (by decide) (Or.inl (by decide))
    zeroBlock ⟨fun _ => 0⟩

end Penglai.Gm

import Penglai.SignTool.KeyText
import Penglai.SignTool.Run

namespace Penglai.SignTool

open Gm

/-! # When a key text is decoded in full

The scanner writes a byte for two characters that a separator follows, separators
between the two not counting. A third character before the separator stops it for
good, and `parse_priv_key_file` does not look how far it came. -/

/-- A text begins with so many groups of two characters, each closed by a separator. -/
inductive Pairs : Nat → List UInt8 → Prop where
  | zero (text : List UInt8) : Pairs 0 text
  | separator {count : Nat} {text : List UInt8} (between : UInt8)
      (separates : isSeparator between = true) (rest : Pairs count text) :
      Pairs count (between :: text)
  | succ {count : Nat} {text : List UInt8} (first : UInt8) (between : List UInt8)
      (second stop : UInt8) (isFirst : isSeparator first = false)
      (separate : ∀ byte ∈ between, isSeparator byte = true)
      (isSecond : isSeparator second = false) (separates : isSeparator stop = true)
      (rest : Pairs count text) : Pairs (count + 1) (first :: (between ++ second :: stop :: text))

section Scan

variable {limit : Nat}

theorem hexScanStep_digit {scan : HexScan limit} {byte : UInt8} (room : scan.cur ≠ limit)
    (digit : isSeparator byte = false) :
    hexScanStep scan byte =
      { scan with
        number := digitOr scan.number byte
        b := scan.b * 16 + digitOr scan.number byte
        numberNumbers := scan.numberNumbers + 1 } := by
  rw [hexScanStep, if_neg room, digit]
  rfl

theorem foldl_separators {scan : HexScan limit} {between : List UInt8}
    (separate : ∀ byte ∈ between, isSeparator byte = true) (pending : scan.numberNumbers ≠ 2) :
    between.foldl hexScanStep scan = scan := by
  induction between with
  | nil => rfl
  | cons byte between induction =>
      rw [List.foldl_cons, hexScanStep_separator (separate byte List.mem_cons_self) pending]
      exact induction fun other member => separate other (List.mem_cons_of_mem _ member)

/-! ## How far the cursor comes -/

theorem le_cur_hexScanStep (scan : HexScan limit) (byte : UInt8) :
    scan.cur ≤ (hexScanStep scan byte).cur := by
  rw [hexScanStep]
  split
  · exact Nat.le_refl _
  · split
    · split
      · split
        · exact Nat.le_refl _
        · exact Nat.le_succ _
      · exact Nat.le_refl _
    · exact Nat.le_refl _

theorem le_cur_foldl (text : List UInt8) (scan : HexScan limit) :
    scan.cur ≤ (text.foldl hexScanStep scan).cur := by
  induction text generalizing scan with
  | nil => exact Nat.le_refl _
  | cons byte text induction =>
      exact (le_cur_hexScanStep scan byte).trans (induction (hexScanStep scan byte))

theorem hexScanStep_cur_le {scan : HexScan limit} (inside : scan.cur ≤ limit) (byte : UInt8) :
    (hexScanStep scan byte).cur ≤ limit := by
  by_cases full : scan.cur = limit
  · rwa [hexScanStep_of_full full]
  · rw [hexScanStep, if_neg full]
    split
    · split
      · split
        · exact inside
        · exact Nat.succ_le_of_lt (Nat.lt_of_le_of_ne inside full)
      · exact inside
    · exact inside

theorem foldl_cur_le {scan : HexScan limit} (inside : scan.cur ≤ limit) (text : List UInt8) :
    (text.foldl hexScanStep scan).cur ≤ limit := by
  induction text generalizing scan with
  | nil => exact inside
  | cons byte text induction => exact induction (hexScanStep_cur_le inside byte)

theorem foldl_pair {scan : HexScan limit} {first second stop : UInt8} {between : List UInt8}
    (isFirst : isSeparator first = false)
    (separate : ∀ byte ∈ between, isSeparator byte = true) (isSecond : isSeparator second = false)
    (separates : isSeparator stop = true) (room : scan.cur ≠ limit)
    (fresh : scan.numberNumbers = 0) (writes : scan.skipZ = true) (text : List UInt8) :
    ∃ next : HexScan limit,
      (first :: (between ++ second :: stop :: text)).foldl hexScanStep scan =
        text.foldl hexScanStep next ∧
      next.cur = scan.cur + 1 ∧ next.numberNumbers = 0 ∧ next.skipZ = true := by
  let one : HexScan limit :=
    { scan with
      number := digitOr scan.number first
      b := scan.b * 16 + digitOr scan.number first
      numberNumbers := 1 }
  have firstStep : hexScanStep scan first = one := by
    rw [hexScanStep_digit room isFirst, fresh]
  let two : HexScan limit :=
    { one with
      number := digitOr one.number second
      b := one.b * 16 + digitOr one.number second
      numberNumbers := 2 }
  have secondStep : hexScanStep one second = two := hexScanStep_digit room isSecond
  have closed := hexScanStep_write (show two.cur ≠ limit from room) separates rfl writes
  refine ⟨hexScanStep two stop, ?_, ?_⟩
  · rw [List.foldl_cons, List.foldl_append, List.foldl_cons, List.foldl_cons, firstStep,
      foldl_separators separate (show (1 : Nat) ≠ 2 by decide), secondStep]
  · rw [closed]
    exact ⟨rfl, rfl, writes⟩

theorem Pairs.le_cur {count : Nat} {text : List UInt8} (pairs : Pairs count text) :
    ∀ {scan : HexScan limit}, scan.cur + count ≤ limit → scan.numberNumbers = 0 →
      scan.skipZ = true → scan.cur + count ≤ (text.foldl hexScanStep scan).cur := by
  induction pairs with
  | zero text =>
      intro scan _ _ _
      exact le_cur_foldl text scan
  | separator between separates rest induction =>
      intro scan room fresh writes
      rw [List.foldl_cons, hexScanStep_separator separates (by omega)]
      exact induction room fresh writes
  | @succ count text first between second stop isFirst separate isSecond separates rest induction =>
      intro scan room fresh writes
      rcases foldl_pair isFirst separate isSecond
        separates (show scan.cur ≠ limit by omega) fresh writes text with
        ⟨next, read, cur, nextFresh, nextWrites⟩
      have further := induction (show next.cur + count ≤ limit by omega) nextFresh nextWrites
      rw [read]
      omega

/-- What a text must still bring if the scanner is to fill its buffer: with no, one,
two or more characters of a group pending. -/
def Completes : (numberNumbers count : Nat) → List UInt8 → Prop
  | 0, count, text => Pairs count text
  | 1, count, text => ∃ between second stop rest, text = between ++ second :: stop :: rest ∧
      (∀ byte ∈ between, isSeparator byte = true) ∧ isSeparator second = false ∧
      isSeparator stop = true ∧ Pairs (count - 1) rest
  | 2, count, text => ∃ stop rest, text = stop :: rest ∧ isSeparator stop = true ∧
      Pairs (count - 1) rest
  | _ + 3, _, _ => False

theorem Completes.separator {count : Nat} {text : List UInt8} {byte : UInt8}
    (separates : isSeparator byte = true) :
    ∀ {pending : Nat}, pending ≠ 2 → Completes pending count text →
      Completes pending count (byte :: text)
  | 0, _, rest => Pairs.separator byte separates rest
  | 1, _, rest => by
      rcases rest with ⟨between, second, stop, further, rfl, separate, closed⟩
      refine ⟨byte :: between, second, stop, further, rfl, ?_, closed⟩
      intro other member
      cases member with
      | head => exact separates
      | tail _ later => exact separate other later
  | 2, notClosing, _ => absurd rfl notClosing
  | _ + 3, _, rest => rest

theorem Completes.digit {count : Nat} {text : List UInt8} {byte : UInt8} (positive : 0 < count)
    (digit : isSeparator byte = false) :
    ∀ {pending : Nat}, Completes (pending + 1) count text → Completes pending count (byte :: text)
  | 0, rest => by
      rcases rest with ⟨between, second, stop, further, rfl, separate, isSecond, closed, pairs⟩
      have counted : count = count - 1 + 1 := by omega
      rw [counted]
      exact .succ byte between second stop digit separate isSecond closed pairs
  | 1, rest => by
      rcases rest with ⟨stop, further, rfl, closed, pairs⟩
      exact ⟨[], byte, stop, further, rfl, by simp, digit, closed, pairs⟩
  | _ + 2, rest => False.elim rest

theorem completes_of_full (text : List UInt8) : ∀ {scan : HexScan limit}, scan.cur < limit →
    scan.skipZ = true → (text.foldl hexScanStep scan).cur = limit →
      Completes scan.numberNumbers (limit - scan.cur) text := by
  induction text with
  | nil =>
      intro scan room _ full
      exact absurd full room.ne
  | cons byte text induction =>
      intro scan room writes full
      rw [List.foldl_cons] at full
      cases separates : isSeparator byte with
      | true =>
          by_cases pending : scan.numberNumbers = 2
          · have closed := hexScanStep_write room.ne separates pending writes
            have cur : (hexScanStep scan byte).cur = scan.cur + 1 := by rw [closed]
            have fresh : (hexScanStep scan byte).numberNumbers = 0 := by rw [closed]
            have stillWrites : (hexScanStep scan byte).skipZ = true := by rw [closed, writes]
            have remaining : limit - scan.cur - 1 = limit - (scan.cur + 1) := by omega
            rw [pending]
            refine ⟨byte, text, rfl, separates, ?_⟩
            rw [remaining]
            by_cases last : limit - (scan.cur + 1) = 0
            · rw [last]
              exact .zero text
            · have rest := induction (by omega) stillWrites full
              rwa [fresh, cur] at rest
          · rw [hexScanStep_separator separates pending] at full
            exact (induction room writes full).separator separates pending
      | false =>
          have pending := hexScanStep_digit room.ne separates
          have cur : (hexScanStep scan byte).cur = scan.cur := by rw [pending]
          have more : (hexScanStep scan byte).numberNumbers = scan.numberNumbers + 1 := by
            rw [pending]
          have stillWrites : (hexScanStep scan byte).skipZ = true := by rw [pending, writes]
          have rest := induction (by omega) stillWrites full
          rw [more, cur] at rest
          exact rest.digit (by omega) separates

/-! ## What becomes of the buffer -/

theorem hexScanStep_key (scan : HexScan limit) (byte : UInt8) :
    ((hexScanStep scan byte).key = scan.key ∧ (hexScanStep scan byte).cur = scan.cur) ∨
      ((hexScanStep scan byte).key = scan.key.set! scan.cur scan.b ∧
        (hexScanStep scan byte).cur = scan.cur + 1) := by
  rw [hexScanStep]
  split
  · exact Or.inl ⟨rfl, rfl⟩
  · split
    · split
      · split
        · exact Or.inl ⟨rfl, rfl⟩
        · exact Or.inr ⟨rfl, rfl⟩
      · exact Or.inl ⟨rfl, rfl⟩
    · exact Or.inl ⟨rfl, rfl⟩

theorem foldl_untouched (text : List UInt8) : ∀ (scan : HexScan limit) {index : Nat}
    (inside : index < limit), (text.foldl hexScanStep scan).cur ≤ index →
      (text.foldl hexScanStep scan).key[index] = scan.key[index] := by
  induction text with
  | nil =>
      intro scan index inside _
      rfl
  | cons byte text induction =>
      intro scan index inside behind
      have later := le_cur_foldl text (hexScanStep scan byte)
      have rest := induction (hexScanStep scan byte) inside behind
      rw [List.foldl_cons] at behind ⊢
      rw [rest]
      rcases hexScanStep_key scan byte with ⟨key, cur⟩ | ⟨key, cur⟩
      · simp only [key]
      · have ahead : scan.cur ≠ index := by omega
        simp only [key, Vector.set!_eq_setIfInBounds, Vector.getElem_setIfInBounds, if_neg ahead]

/-- Two scanners that agree on everything but the cells they have not written. -/
structure Alike (scan scan' : HexScan limit) : Prop where
  cur : scan.cur = scan'.cur
  b : scan.b = scan'.b
  numberNumbers : scan.numberNumbers = scan'.numberNumbers
  number : scan.number = scan'.number
  skipZ : scan.skipZ = scan'.skipZ
  written : ∀ {index : Nat} (inside : index < limit), index < scan.cur →
    scan.key[index] = scan'.key[index]

theorem Alike.step {scan scan' : HexScan limit} (alike : Alike scan scan') (byte : UInt8) :
    Alike (hexScanStep scan byte) (hexScanStep scan' byte) := by
  rcases alike with ⟨sameCur, sameB, sameDigits, sameNumber, sameSkip, written⟩
  simp only [hexScanStep, ← sameCur, ← sameB, ← sameDigits, ← sameNumber, ← sameSkip]
  by_cases full : scan.cur = limit
  · simp only [if_pos full]
    exact ⟨sameCur, sameB, sameDigits, sameNumber, sameSkip, written⟩
  · by_cases separates : isSeparator byte
    · by_cases pending : scan.numberNumbers = 2
      · cases writes : scan.skipZ with
        | true =>
            simp only [if_neg full, if_pos separates, if_pos pending, Bool.not_true,
              Bool.false_eq_true, if_false]
            refine ⟨rfl, rfl, rfl, rfl, rfl, ?_⟩
            intro index inside before
            have inFront : index < scan.cur + 1 := before
            simp only [Vector.set!_eq_setIfInBounds, Vector.getElem_setIfInBounds]
            by_cases here : scan.cur = index
            · rw [if_pos here, if_pos here]
            · rw [if_neg here, if_neg here]
              exact written inside (by omega)
        | false =>
            simp only [if_neg full, if_pos separates, if_pos pending, Bool.not_false, if_true]
            exact ⟨rfl, rfl, rfl, rfl, rfl, written⟩
      · simp only [if_neg full, if_pos separates, if_neg pending]
        exact ⟨sameCur, sameB, sameDigits, sameNumber, sameSkip, written⟩
    · simp only [if_neg full, if_neg separates]
      exact ⟨rfl, rfl, rfl, rfl, rfl, written⟩

theorem Alike.foldl {scan scan' : HexScan limit} (alike : Alike scan scan') (text : List UInt8) :
    Alike (text.foldl hexScanStep scan) (text.foldl hexScanStep scan') := by
  induction text generalizing scan scan' with
  | nil => exact alike
  | cons byte text induction => exact induction (alike.step byte)

end Scan

/-! ## The parser -/

def AllWritten (privKey : Bytes 32) (line : List UInt8) : Prop :=
  (line.foldl hexScanStep (privScan privKey)).cur = 32

theorem allWritten_iff (privKey : Bytes 32) (line : List UInt8) :
    AllWritten privKey line ↔ Pairs 32 line := by
  constructor
  · intro full
    exact completes_of_full line (show (privScan privKey).cur < 32 from Nat.zero_lt_succ 31) rfl full
  · intro pairs
    have reached := pairs.le_cur (show (privScan privKey).cur + 32 ≤ 32 from Nat.le_refl 32) rfl rfl
    exact Nat.le_antisymm (foldl_cur_le (Nat.zero_le 32) line) reached

theorem alike_privScan (privKey privKey' : Bytes 32) :
    Alike (privScan privKey) (privScan privKey') :=
  ⟨rfl, rfl, rfl, rfl, rfl, fun _ before => absurd before (Nat.not_lt_zero _)⟩

theorem scanPrivKey_eq_of_pairs {line : List UInt8} (pairs : Pairs 32 line)
    (privKey privKey' : Bytes 32) : scanPrivKey privKey line = scanPrivKey privKey' line := by
  have full := (allWritten_iff privKey line).mpr pairs
  have alike := (alike_privScan privKey privKey').foldl line
  apply Vector.ext
  intro index inside
  exact alike.written inside (by rw [full]; exact inside)

def lastByte (byte : UInt8) : Bytes 32 := (Vector.replicate 32 0).set 31 byte

/-- Without all groups the last byte of the key is the old one, and nothing else
depends on it. -/
theorem scanPrivKey_lastByte {line : List UInt8} (short : ¬Pairs 32 line) :
    ∃ front : List UInt8, ∀ byte, (scanPrivKey (lastByte byte) line).toList = front ++ [byte] := by
  have unfilled : ∀ byte, (line.foldl hexScanStep (privScan (lastByte byte))).cur ≤ 31 := by
    intro byte
    have inside := foldl_cur_le (show (privScan (lastByte byte)).cur ≤ 32 from Nat.zero_le 32) line
    have missing := mt (allWritten_iff (lastByte byte) line).mp short
    rw [AllWritten] at missing
    omega
  have old : ∀ byte, (scanPrivKey (lastByte byte) line)[31] = byte := by
    intro byte
    rw [scanPrivKey, foldl_untouched line _ (by decide) (unfilled byte)]
    simp [privScan, lastByte]
  have same : ∀ byte index (inside : index < 31),
      (scanPrivKey (lastByte byte) line)[index] = (scanPrivKey (lastByte 0) line)[index] := by
    intro byte index inside
    have alike := (alike_privScan (lastByte byte) (lastByte 0)).foldl line
    by_cases before : index < (line.foldl hexScanStep (privScan (lastByte byte))).cur
    · exact alike.written (by omega) before
    · have behind := Nat.le_of_not_lt before
      rw [scanPrivKey, scanPrivKey, foldl_untouched line _ (by omega) behind,
        foldl_untouched line _ (by omega) (alike.cur ▸ behind)]
      simp [privScan, lastByte, show 31 ≠ index by omega]
  refine ⟨(scanPrivKey (lastByte 0) line).toList.take 31, fun byte => ?_⟩
  apply List.ext_getElem
  · simp
  · intro index inside _
    rw [Vector.length_toList] at inside
    by_cases last : index = 31
    · subst last
      simp [old]
    · have front : index < 31 := by omega
      rw [List.getElem_append_left (by simp; omega)]
      simp [same byte index front]

theorem exists_usable (base : Nat) : ∃ byte byte' : UInt8, byte ≠ byte' ∧
    ¬sm2N ∣ base + byte.toNat ∧ ¬sm2N ∣ base + byte'.toNat := by
  have large : 2 < sm2N := by decide
  have apart : ∀ {offset offset' : Nat}, offset < offset' → offset' ≤ 2 →
      sm2N ∣ base + offset → ¬sm2N ∣ base + offset' := by
    intro offset offset' less small divides divides'
    have difference := Nat.dvd_sub divides' divides
    have bound := Nat.le_of_dvd (by omega) difference
    omega
  by_cases first : sm2N ∣ base + 0
  · exact ⟨1, 2, by decide, apart (by decide) (by decide) first, apart (by decide) (by decide) first⟩
  · by_cases second : sm2N ∣ base + 1
    · exact ⟨0, 2, by decide, first, apart (by decide) (by decide) second⟩
    · exact ⟨0, 1, by decide, first, second⟩

theorem exists_usableBuffers {line : List UInt8} (short : ¬Pairs 32 line) :
    ∃ privKey privKey',
      ¬sm2N ∣ (scanPrivKey privKey line).toNat ∧ ¬sm2N ∣ (scanPrivKey privKey' line).toNat ∧
      scanPrivKey privKey line ≠ scanPrivKey privKey' line := by
  rcases scanPrivKey_lastByte short with ⟨front, split⟩
  have value : ∀ byte, (scanPrivKey (lastByte byte) line).toNat =
      beNat front * 256 + byte.toNat := by
    intro byte
    rw [Bytes.toNat, split, beNat_concat]
  rcases exists_usable (beNat front * 256) with ⟨byte, byte', different, usable, usable'⟩
  refine ⟨lastByte byte, lastByte byte', by rwa [value], by rwa [value], fun same => ?_⟩
  have lists := congrArg Vector.toList same
  rw [split, split] at lists
  exact different (List.singleton_inj.mp (List.append_cancel_left lists))

section Parse

variable {fuel : Nat} {detached : Call → LibState → Option Detached}

theorem exists_parse_zero {privKey : Bytes 32} {line : List UInt8}
    (usable : ¬sm2N ∣ (scanPrivKey privKey line).toNat) (pubkey : PublicKey) :
    ∃ parsed lib,
      parsePrivKeyFile (fuel + 1) detached LibState.start privKey pubkey line =
        some (parsed, lib) ∧
      parsed.status = 0 ∧ parsed.privKey = scanPrivKey privKey line := by
  refine ⟨_, _, parsePrivKeyFile_start privKey pubkey line, ?_, rfl⟩
  rw [sm2MakePubkey_status, if_neg usable]

/-- Success with a full buffer, and a result that does not depend on the old buffer:
both hold for exactly the texts with all 32 groups. -/
theorem parsePrivKeyFile_complete_iff (line : List UInt8) :
    ((∀ privKey pubkey parsed lib,
        parsePrivKeyFile (fuel + 1) detached LibState.start privKey pubkey line =
          some (parsed, lib) →
        parsed.status = 0 → AllWritten privKey line) ↔ Pairs 32 line) ∧
    ((∀ privKey privKey' pubkey pubkey' parsed parsed' lib lib',
        parsePrivKeyFile (fuel + 1) detached LibState.start privKey pubkey line =
          some (parsed, lib) →
        parsePrivKeyFile (fuel + 1) detached LibState.start privKey' pubkey' line =
          some (parsed', lib') →
        parsed.status = 0 → parsed'.status = 0 →
        parsed.privKey = parsed'.privKey ∧ parsed.pubkey = parsed'.pubkey) ↔ Pairs 32 line) := by
  let noKey : PublicKey := ⟨Bytes.ofNat 32 0, Bytes.ofNat 32 0⟩
  constructor
  · constructor
    · intro complete
      by_contra short
      rcases exists_usableBuffers short with ⟨privKey, _, usable, _⟩
      rcases exists_parse_zero usable noKey with ⟨parsed, lib, returned, success, _⟩
      exact short ((allWritten_iff privKey line).mp
        (complete privKey noKey parsed lib returned success))
    · intro pairs privKey _ _ _ _ _
      exact (allWritten_iff privKey line).mpr pairs
  · constructor
    · intro determined
      by_contra short
      rcases exists_usableBuffers short with ⟨privKey, privKey', usable, usable', different⟩
      rcases exists_parse_zero usable noKey with ⟨parsed, lib, returned, success, key⟩
      rcases exists_parse_zero usable' noKey with ⟨parsed', lib', returned', success', key'⟩
      have same := (determined privKey privKey' noKey noKey parsed parsed' lib lib' returned
        returned' success success').1
      rw [key, key'] at same
      exact different same
    · intro pairs privKey privKey' pubkey pubkey' parsed parsed' lib lib' returned returned' _ _
      rw [parsePrivKeyFile_start, scanPrivKey_eq_of_pairs pairs privKey (Vector.replicate 32 0),
        Option.some.injEq, Prod.mk.injEq] at returned
      rw [parsePrivKeyFile_start, scanPrivKey_eq_of_pairs pairs privKey' (Vector.replicate 32 0),
        Option.some.injEq, Prod.mk.injEq] at returned'
      rw [← returned.1, ← returned'.1]
      exact ⟨rfl, rfl⟩

end Parse

def shortKeyText : List UInt8 :=
  labelledDump (fun _ => 4) 0 (List.replicate 24 0x11) ++ [0x70, 0x75, 0x62, 0x3A, 0x0A]

theorem shortKeyText_parses : ∃ privKey privKey' parsed parsed' lib lib',
    parsePrivKeyFile 1 (fun _ _ => none) LibState.start privKey
      ⟨Bytes.ofNat 32 0, Bytes.ofNat 32 0⟩ shortKeyText = some (parsed, lib) ∧
    parsePrivKeyFile 1 (fun _ _ => none) LibState.start privKey'
      ⟨Bytes.ofNat 32 0, Bytes.ofNat 32 0⟩ shortKeyText = some (parsed', lib') ∧
    parsed.status = 0 ∧ parsed'.status = 0 ∧ ¬AllWritten privKey shortKeyText ∧
    parsed.privKey ≠ parsed'.privKey := by
  have usable : ¬sm2N ∣ (scanPrivKey (lastByte 1) shortKeyText).toNat := by decide +kernel
  have usable' : ¬sm2N ∣ (scanPrivKey (lastByte 2) shortKeyText).toNat := by decide +kernel
  rcases exists_parse_zero usable ⟨Bytes.ofNat 32 0, Bytes.ofNat 32 0⟩ with
    ⟨parsed, lib, returned, success, key⟩
  rcases exists_parse_zero usable' ⟨Bytes.ofNat 32 0, Bytes.ofNat 32 0⟩ with
    ⟨parsed', lib', returned', success', key'⟩
  refine ⟨_, _, parsed, parsed', lib, lib', returned, returned', success, success', ?_, ?_⟩
  · have stops : (shortKeyText.foldl hexScanStep (privScan (lastByte 1))).cur = 24 := by
      decide +kernel
    rw [AllWritten, stops]
    decide
  · rw [key, key']
    decide +kernel

end Penglai.SignTool

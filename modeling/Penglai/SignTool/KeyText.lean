import Penglai.SignTool.KeyFile

namespace Penglai.SignTool

/-! # Key texts and what the scanner reads

Texts made of two-digit groups, however they are laid out, are read back exactly. -/

/-! ## Texts of two-digit groups -/

def hexDigit (value : Nat) : UInt8 :=
  if value < 10 then 0x30 + UInt8.ofNat value else 0x61 + UInt8.ofNat (value - 10)

def hexPair (byte : UInt8) : List UInt8 :=
  [hexDigit (byte.toNat / 16), hexDigit (byte.toNat % 16)]

/-- A text lists bytes: two digits and at least one separator for each, and any
further separators before, between and behind them. -/
inductive Lists : List UInt8 → List UInt8 → Prop where
  | nil : Lists [] []
  | separator {bytes text : List UInt8} (between : UInt8) (separates : isSeparator between = true)
      (rest : Lists bytes text) : Lists bytes (between :: text)
  | byte {bytes text : List UInt8} (byte stop : UInt8) (separates : isSeparator stop = true)
      (rest : Lists bytes text) : Lists (byte :: bytes) (hexPair byte ++ stop :: text)

/-- Line breaks and indentation of OpenSSL before the byte at `position`: fifteen
bytes stand on a line. -/
def lineStart (indent : Nat → Nat) (position : Nat) : List UInt8 :=
  if position % 15 = 0 then
    (if position = 0 then [] else [0x0A]) ++ List.replicate (indent (position / 15)) 0x20
  else []

def labelledDump (indent : Nat → Nat) : (position : Nat) → List UInt8 → List UInt8
  | _, [] => []
  | position, [byte] => lineStart indent position ++ (hexPair byte ++ [0x0A])
  | position, byte :: next :: rest =>
      lineStart indent position ++
        (hexPair byte ++ 0x3A :: labelledDump indent (position + 1) (next :: rest))

theorem Lists.separators {bytes text : List UInt8} {between : List UInt8}
    (separate : ∀ byte ∈ between, isSeparator byte = true) (rest : Lists bytes text) :
    Lists bytes (between ++ text) := by
  induction between with
  | nil => exact rest
  | cons byte between induction =>
      exact .separator byte (separate byte List.mem_cons_self)
        (induction fun other member => separate other (List.mem_cons_of_mem _ member))

theorem isSeparator_of_mem_lineStart {indent : Nat → Nat} {position : Nat} :
    ∀ byte ∈ lineStart indent position, isSeparator byte = true := by
  intro byte member
  simp only [lineStart] at member
  split at member
  · rw [List.mem_append] at member
    cases member with
    | inl newline =>
        split at newline
        · cases newline
        · rw [List.mem_singleton.mp newline]
          rfl
    | inr space =>
        rw [List.eq_of_mem_replicate space]
        rfl
  · cases member

theorem lists_labelledDump (indent : Nat → Nat) : ∀ (position : Nat) (bytes : List UInt8),
    Lists bytes (labelledDump indent position bytes)
  | _, [] => .nil
  | _, [byte] => Lists.separators isSeparator_of_mem_lineStart (.byte byte 0x0A rfl .nil)
  | position, byte :: next :: rest =>
      Lists.separators isSeparator_of_mem_lineStart
        (.byte byte 0x3A rfl (lists_labelledDump indent (position + 1) (next :: rest)))

/-! ## Reading -/

section Reading

variable {limit : Nat}

theorem hexScanStep_of_full {scan : HexScan limit} (full : scan.cur = limit) (byte : UInt8) :
    hexScanStep scan byte = scan := by
  rw [hexScanStep, if_pos full]

theorem foldl_of_full {scan : HexScan limit} (full : scan.cur = limit) (text : List UInt8) :
    text.foldl hexScanStep scan = scan := by
  induction text with
  | nil => rfl
  | cons byte text induction => rw [List.foldl_cons, hexScanStep_of_full full, induction]

theorem hexScanStep_separator {scan : HexScan limit} {byte : UInt8}
    (separates : isSeparator byte = true) (pending : scan.numberNumbers ≠ 2) :
    hexScanStep scan byte = scan := by
  rw [hexScanStep, if_pos separates, if_neg pending, ite_self]

theorem isSeparator_hexDigit {value : Nat} (small : value < 16) :
    isSeparator (hexDigit value) = false := by
  interval_cases value <;> rfl

theorem digitOr_hexDigit {value : Nat} (small : value < 16) (number : UInt8) :
    digitOr number (hexDigit value) = UInt8.ofNat value := by
  interval_cases value <;> rfl

theorem foldl_hexPair {scan : HexScan limit} (room : scan.cur ≠ limit) (clear : scan.b = 0)
    (byte : UInt8) :
    (hexPair byte).foldl hexScanStep scan =
      { scan with
        b := byte
        number := UInt8.ofNat (byte.toNat % 16)
        numberNumbers := scan.numberNumbers + 2 } := by
  have bound := byte.toNat_lt
  have high : byte.toNat / 16 < 16 := by omega
  have low : byte.toNat % 16 < 16 := by omega
  have joined : UInt8.ofNat (byte.toNat / 16) * 16 + UInt8.ofNat (byte.toNat % 16) = byte := by
    apply UInt8.toNat_inj.mp
    simp only [UInt8.toNat_add, UInt8.toNat_mul, UInt8.toNat_ofNat', UInt8.reduceToNat]
    omega
  simp [hexPair, hexScanStep, room, isSeparator_hexDigit high, isSeparator_hexDigit low,
    digitOr_hexDigit high, digitOr_hexDigit low, clear, joined]

theorem hexScanStep_write {scan : HexScan limit} {stop : UInt8} (room : scan.cur ≠ limit)
    (separates : isSeparator stop = true) (pending : scan.numberNumbers = 2)
    (writes : scan.skipZ = true) :
    hexScanStep scan stop =
      { scan with
        key := scan.key.set! scan.cur scan.b
        cur := scan.cur + 1
        b := 0
        numberNumbers := 0 } := by
  rw [hexScanStep, if_neg room, if_pos separates, if_pos pending, writes]
  rfl

theorem hexScanStep_skip {scan : HexScan limit} {stop : UInt8} (room : scan.cur ≠ limit)
    (separates : isSeparator stop = true) (pending : scan.numberNumbers = 2)
    (skips : scan.skipZ = false) :
    hexScanStep scan stop = { scan with skipZ := true, b := 0, numberNumbers := 0 } := by
  rw [hexScanStep, if_neg room, if_pos separates, if_pos pending, skips]
  rfl

theorem foldl_group_write {scan : HexScan limit} {stop : UInt8} (byte : UInt8)
    (text : List UInt8) (room : scan.cur ≠ limit) (clear : scan.b = 0)
    (fresh : scan.numberNumbers = 0) (writes : scan.skipZ = true)
    (separates : isSeparator stop = true) :
    (hexPair byte ++ stop :: text).foldl hexScanStep scan =
      text.foldl hexScanStep
        { scan with
          cur := scan.cur + 1
          b := 0
          numberNumbers := 0
          number := UInt8.ofNat (byte.toNat % 16)
          key := scan.key.set! scan.cur byte } := by
  rw [List.foldl_append, List.foldl_cons, foldl_hexPair room clear, fresh]
  exact congrArg (text.foldl hexScanStep) (hexScanStep_write room separates rfl writes)

theorem foldl_group_skip {scan : HexScan limit} {stop : UInt8} (byte : UInt8)
    (text : List UInt8) (room : scan.cur ≠ limit) (clear : scan.b = 0)
    (fresh : scan.numberNumbers = 0) (skips : scan.skipZ = false)
    (separates : isSeparator stop = true) :
    (hexPair byte ++ stop :: text).foldl hexScanStep scan =
      text.foldl hexScanStep
        { scan with
          b := 0
          numberNumbers := 0
          number := UInt8.ofNat (byte.toNat % 16)
          skipZ := true } := by
  rw [List.foldl_append, List.foldl_cons, foldl_hexPair room clear, fresh]
  exact congrArg (text.foldl hexScanStep) (hexScanStep_skip room separates rfl skips)

/-- Bytes written one after the other from a position on; those that do not fit are
dropped. -/
def writeFrom : Bytes limit → Nat → List UInt8 → Bytes limit
  | key, _, [] => key
  | key, cur, byte :: rest => writeFrom (key.set! cur byte) (cur + 1) rest

theorem writeFrom_of_full {key : Bytes limit} {cur : Nat} (full : limit ≤ cur)
    (bytes : List UInt8) : writeFrom key cur bytes = key := by
  induction bytes generalizing key cur with
  | nil => rfl
  | cons byte rest induction =>
      rw [writeFrom, Vector.set!_eq_setIfInBounds, Vector.setIfInBounds_eq_of_size_le full]
      exact induction (Nat.le_succ_of_le full)

theorem getElem_writeFrom (bytes : List UInt8) : ∀ (key : Bytes limit) (cur index : Nat)
    (inside : index < limit),
    (writeFrom key cur bytes)[index] =
      if cur ≤ index then bytes.getD (index - cur) key[index] else key[index] := by
  induction bytes with
  | nil => simp [writeFrom]
  | cons byte rest induction =>
      intro key cur index inside
      rw [writeFrom, induction, Vector.set!_eq_setIfInBounds, Vector.getElem_setIfInBounds]
      by_cases before : index < cur
      · simp [show ¬cur + 1 ≤ index by omega, show ¬cur ≤ index by omega, show cur ≠ index by omega]
      · by_cases here : cur = index
        · simp [here]
        · have split : index - cur = index - (cur + 1) + 1 := by omega
          simp [show cur + 1 ≤ index by omega, show cur ≤ index by omega, here, split]

theorem writeFrom_zero_of_length {bytes : Bytes limit} {key : Bytes limit} :
    writeFrom key 0 bytes.toList = bytes := by
  apply Vector.ext
  intro index inside
  rw [getElem_writeFrom]
  simp [inside]

theorem foldl_lists {bytes text : List UInt8} (lists : Lists bytes text) :
    ∀ {scan : HexScan limit}, scan.cur ≤ limit → scan.b = 0 → scan.numberNumbers = 0 →
      scan.skipZ = true →
      (text.foldl hexScanStep scan).key = writeFrom scan.key scan.cur bytes ∧
      (text.foldl hexScanStep scan).cur = min limit (scan.cur + bytes.length) := by
  induction lists with
  | nil =>
      intro scan inside _ _ _
      exact ⟨rfl, (Nat.min_eq_right inside).symm⟩
  | separator between separates rest induction =>
      intro scan inside clear fresh writes
      rw [List.foldl_cons, hexScanStep_separator separates (by omega)]
      exact induction inside clear fresh writes
  | @byte bytes text byte stop separates rest induction =>
      intro scan inside clear fresh writes
      by_cases room : scan.cur = limit
      · rw [foldl_of_full room, writeFrom_of_full room.ge]
        exact ⟨rfl, by omega⟩
      · rw [foldl_group_write byte text room clear fresh writes separates]
        have next : scan.cur + 1 ≤ limit := Nat.succ_le_of_lt (Nat.lt_of_le_of_ne inside room)
        have shifted : scan.cur + (byte :: bytes).length = scan.cur + 1 + bytes.length := by
          rw [List.length_cons]
          omega
        rw [shifted]
        exact induction next rfl rfl writes

theorem foldl_lists_skip {first : UInt8} {bytes text : List UInt8}
    (lists : Lists (first :: bytes) text) {scan : HexScan limit} (room : scan.cur < limit)
    (clear : scan.b = 0) (fresh : scan.numberNumbers = 0) (skips : scan.skipZ = false) :
    (text.foldl hexScanStep scan).key = writeFrom scan.key scan.cur bytes ∧
    (text.foldl hexScanStep scan).cur = min limit (scan.cur + bytes.length) := by
  generalize listed : first :: bytes = all at lists
  induction lists with
  | nil => cases listed
  | separator between separates rest induction =>
      rw [List.foldl_cons, hexScanStep_separator separates (by omega)]
      exact induction listed
  | @byte others text byte stop separates rest =>
      rcases List.cons.inj listed with ⟨rfl, rfl⟩
      rw [foldl_group_skip first text room.ne clear fresh skips separates]
      exact foldl_lists rest room.le rfl rfl rfl

def plainGroups (bytes : List UInt8) : List UInt8 :=
  bytes.flatMap fun byte => hexPair byte ++ [0x3A]

/-- A scanner between two groups cannot tell texts that list the same bytes apart. -/
theorem foldl_lists_eq_plainGroups {bytes text : List UInt8} (lists : Lists bytes text) :
    ∀ {scan : HexScan limit}, scan.b = 0 → scan.numberNumbers = 0 →
      text.foldl hexScanStep scan = (plainGroups bytes).foldl hexScanStep scan := by
  induction lists with
  | nil =>
      intro scan _ _
      rfl
  | separator between separates rest induction =>
      intro scan clear fresh
      rw [List.foldl_cons, hexScanStep_separator separates (by omega)]
      exact induction clear fresh
  | @byte bytes text byte stop separates rest induction =>
      intro scan clear fresh
      have groups : plainGroups (byte :: bytes) = hexPair byte ++ 0x3A :: plainGroups bytes := by
        simp [plainGroups]
      rw [groups]
      by_cases full : scan.cur = limit
      · rw [foldl_of_full full, foldl_of_full full]
      · cases writes : scan.skipZ with
        | true =>
            rw [foldl_group_write byte text full clear fresh writes separates,
              foldl_group_write byte (plainGroups bytes) full clear fresh writes rfl]
            exact induction rfl rfl
        | false =>
            rw [foldl_group_skip byte text full clear fresh writes separates,
              foldl_group_skip byte (plainGroups bytes) full clear fresh writes rfl]
            exact induction rfl rfl

end Reading

/-! ## The two parsers -/

theorem scanPrivKey_append {text : List UInt8} {bytes : Bytes 32}
    (lists : Lists bytes.toList text) (privKey : Bytes 32) (further : List UInt8) :
    scanPrivKey privKey (text ++ further) = bytes := by
  have inside : (privScan privKey).cur ≤ 32 := Nat.zero_le 32
  rcases foldl_lists lists inside rfl rfl rfl with ⟨key, cur⟩
  have full : (text.foldl hexScanStep (privScan privKey)).cur = 32 := by
    rw [cur, Vector.length_toList]
    rfl
  rw [scanPrivKey, List.foldl_append, foldl_of_full full, key]
  exact writeFrom_zero_of_length

theorem scanPubKey_append {text : List UInt8} {first : UInt8} {bytes : Bytes 64}
    (lists : Lists (first :: bytes.toList) text) (pubKey : Bytes 64) (further : List UInt8) :
    scanPubKey pubKey (text ++ further) = bytes := by
  have room : (pubScan pubKey).cur < 64 := Nat.zero_lt_succ 63
  rcases foldl_lists_skip lists room rfl rfl rfl with ⟨key, cur⟩
  have full : (text.foldl hexScanStep (pubScan pubKey)).cur = 64 := by
    rw [cur, Vector.length_toList]
    rfl
  rw [scanPubKey, List.foldl_append, foldl_of_full full, key]
  exact writeFrom_zero_of_length

/-- The scanners read back what OpenSSL prints, whatever follows it, and see nothing
of a text but its two-digit groups. -/
theorem scan_labelledDump :
    (∀ (b privKey : Bytes 32) (indent : Nat → Nat) (further : List UInt8),
      scanPrivKey privKey (labelledDump indent 0 b.toList ++ further) = b) ∧
    (∀ (x y : Bytes 32) (pubKey : Bytes 64) (indent : Nat → Nat) (further : List UInt8),
      scanPubKey pubKey (labelledDump indent 0 (0x04 :: (x.toList ++ y.toList)) ++ further) =
        x ++ y) ∧
    (∀ bytes text text' : List UInt8, Lists bytes text → Lists bytes text' →
      ∀ further : List UInt8,
        (∀ privKey, scanPrivKey privKey (text ++ further) =
          scanPrivKey privKey (text' ++ further)) ∧
        (∀ pubKey, scanPubKey pubKey (text ++ further) =
          scanPubKey pubKey (text' ++ further))) := by
  refine ⟨?_, ?_, ?_⟩
  · intro b privKey indent further
    exact scanPrivKey_append (lists_labelledDump indent 0 b.toList) privKey further
  · intro x y pubKey indent further
    have joined : (x ++ y).toList = x.toList ++ y.toList := Vector.toList_append
    have lists := lists_labelledDump indent 0 (0x04 :: (x ++ y).toList)
    rw [← joined]
    exact scanPubKey_append lists pubKey further
  · intro bytes text text' lists lists' further
    constructor
    · intro privKey
      rw [scanPrivKey, scanPrivKey, List.foldl_append, List.foldl_append,
        foldl_lists_eq_plainGroups lists rfl rfl, foldl_lists_eq_plainGroups lists' rfl rfl]
    · intro pubKey
      rw [scanPubKey, scanPubKey, List.foldl_append, List.foldl_append,
        foldl_lists_eq_plainGroups lists rfl rfl, foldl_lists_eq_plainGroups lists' rfl rfl]

end Penglai.SignTool

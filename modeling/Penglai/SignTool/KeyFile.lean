import Penglai.Foundation.Bytes

namespace Penglai.SignTool

/-! # The hex scanner of `parse_key_file.c`

The loop over the text that OpenSSL prints for a key, behind its two header
lines. Both parsers share it; the one for public keys drops the first byte. -/

structure HexScan (limit : Nat) where
  cur : Nat
  b : UInt8
  numberNumbers : Nat
  number : UInt8
  skipZ : Bool
  key : Bytes limit

def isSeparator (byte : UInt8) : Bool := byte = 0x20 || byte = 0x0A || byte = 0x3A

/-- The value of a digit; any other character leaves the last one in place. -/
def digitOr (number byte : UInt8) : UInt8 :=
  if 0x30 ≤ byte ∧ byte ≤ 0x39 then byte - 0x30
  else if 0x61 ≤ byte ∧ byte ≤ 0x66 then byte - 0x61 + 10
  else number

def hexScanStep {limit : Nat} (scan : HexScan limit) (byte : UInt8) : HexScan limit :=
  if scan.cur = limit then scan
  else if isSeparator byte then
    if scan.numberNumbers = 2 then
      if !scan.skipZ then { scan with skipZ := true, b := 0, numberNumbers := 0 }
      else
        { scan with
          key := scan.key.set! scan.cur scan.b
          cur := scan.cur + 1
          b := 0
          numberNumbers := 0 }
    else scan
  else
    { scan with
      number := digitOr scan.number byte
      b := scan.b * 16 + digitOr scan.number byte
      numberNumbers := scan.numberNumbers + 1 }

def privScan (privKey : Bytes 32) : HexScan 32 where
  cur := 0
  b := 0
  numberNumbers := 0
  number := 0
  skipZ := true
  key := privKey

def scanPrivKey (privKey : Bytes 32) (line : List UInt8) : Bytes 32 :=
  (line.foldl hexScanStep (privScan privKey)).key

/-- `parse_pub_key_file` does not write the first byte. -/
def pubScan (pubKey : Bytes 64) : HexScan 64 where
  cur := 0
  b := 0
  numberNumbers := 0
  number := 0
  skipZ := false
  key := pubKey

def scanPubKey (pubKey : Bytes 64) (line : List UInt8) : Bytes 64 :=
  (line.foldl hexScanStep (pubScan pubKey)).key

end Penglai.SignTool

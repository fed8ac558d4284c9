import Penglai.Foundation.Bytes
import Penglai.Foundation.Loop

namespace Penglai.Gm

/-! # The SM3 hash (`gm/src/SM3.c`)

The streaming hash as it runs on a little-endian machine. `SM3_init` does not
touch the block buffer, so its old content is an argument here. -/

/-! ## Word operations -/

def sm3Rotl32 (x n : UInt32) : UInt32 := (x <<< n) ||| (x >>> (32 - n))

def sm3P0 (x : UInt32) : UInt32 := x ^^^ sm3Rotl32 x 9 ^^^ sm3Rotl32 x 17

def sm3P1 (x : UInt32) : UInt32 := x ^^^ sm3Rotl32 x 15 ^^^ sm3Rotl32 x 23

def sm3Ff0 (a b c : UInt32) : UInt32 := a ^^^ b ^^^ c

def sm3Ff1 (a b c : UInt32) : UInt32 := (a &&& b) ||| (a &&& c) ||| (b &&& c)

def sm3Gg0 (e f g : UInt32) : UInt32 := e ^^^ f ^^^ g

def sm3Gg1 (e f g : UInt32) : UInt32 := (e &&& f) ||| (~~~e &&& g)

def sm3T1 : UInt32 := 0x79CC4519

def sm3T2 : UInt32 := 0x7A879D8A

/-! ## State -/

/-- `SM3_STATE`. Between calls fewer than 64 bytes are pending, so `curlen`
indexes the buffer. -/
structure Sm3State where
  state : Vector UInt32 8
  length : UInt32
  curlen : Fin 64
  buf : Bytes 64
deriving DecidableEq

def sm3Iv : Vector UInt32 8 :=
  #v[0x7380166f, 0x4914b2b9, 0x172442d7, 0xda8a0600,
    0xa96f30bc, 0x163138aa, 0xe38dee4d, 0xb0fb0e4e]

def sm3Init (staleBuf : Bytes 64) : Sm3State where
  state := sm3Iv
  length := 0
  curlen := 0
  buf := staleBuf

/-! ## Compression -/

def bigEndian {width : Nat} (buf : Bytes width) : Bytes width :=
  forRange 0 (width / 4)
    (fun i buf => (buf.swapIfInBounds (4 * i) (4 * i + 3)).swapIfInBounds (4 * i + 1) (4 * i + 2))
    buf

def loadWord {width : Nat} (buf : Bytes width) (i : Nat) : UInt32 :=
  buf[4 * i]!.toUInt32 ||| (buf[4 * i + 1]!.toUInt32 <<< 8) |||
    (buf[4 * i + 2]!.toUInt32 <<< 16) ||| (buf[4 * i + 3]!.toUInt32 <<< 24)

def biToW (bi : Vector UInt32 16) : Vector UInt32 68 :=
  let w := forRange 0 16 (fun i w => w.set! i bi[i]!) (Vector.replicate 68 0)
  forRange 16 52
    (fun i w =>
      let tmp := w[i - 16]! ^^^ w[i - 9]! ^^^ sm3Rotl32 w[i - 3]! 15
      w.set! i (sm3P1 tmp ^^^ sm3Rotl32 w[i - 13]! 7 ^^^ w[i - 6]!))
    w

def wToW1 (w : Vector UInt32 68) : Vector UInt32 64 :=
  forRange 0 64 (fun i w1 => w1.set! i (w[i]! ^^^ w[i + 4]!)) (Vector.replicate 64 0)

structure CfRegs where
  (a b c d e f g h t : UInt32)

def cfRound (w : Vector UInt32 68) (w1 : Vector UInt32 64) (j : Nat) (regs : CfRegs) : CfRegs :=
  let t :=
    if j = 0 then sm3T1 else if j = 16 then sm3Rotl32 sm3T2 16 else sm3Rotl32 regs.t 1
  let ss1 := sm3Rotl32 (sm3Rotl32 regs.a 12 + regs.e + t) 7
  let ss2 := ss1 ^^^ sm3Rotl32 regs.a 12
  let ff := if j ≤ 15 then sm3Ff0 regs.a regs.b regs.c else sm3Ff1 regs.a regs.b regs.c
  let tt1 := ff + regs.d + ss2 + w1[j]!
  let gg := if j ≤ 15 then sm3Gg0 regs.e regs.f regs.g else sm3Gg1 regs.e regs.f regs.g
  let tt2 := gg + regs.h + ss1 + w[j]!
  { a := tt1, b := regs.a, c := sm3Rotl32 regs.b 9, d := regs.c,
    e := sm3P0 tt2, f := regs.e, g := sm3Rotl32 regs.f 19, h := regs.g, t := t }

def cf (w : Vector UInt32 68) (w1 : Vector UInt32 64) (v : Vector UInt32 8) : Vector UInt32 8 :=
  let regs := forRange 0 64 (cfRound w w1)
    { a := v[0], b := v[1], c := v[2], d := v[3], e := v[4], f := v[5], g := v[6], h := v[7],
      t := sm3T1 }
  #v[regs.a ^^^ v[0], regs.b ^^^ v[1], regs.c ^^^ v[2], regs.d ^^^ v[3],
    regs.e ^^^ v[4], regs.f ^^^ v[5], regs.g ^^^ v[6], regs.h ^^^ v[7]]

/-- What one block does to the chaining value; `block` is the buffer before
it is byte-swapped. -/
def compressBlock (block : Bytes 64) (v : Vector UInt32 8) : Vector UInt32 8 :=
  let swapped := bigEndian block
  let w := biToW (Vector.ofFn fun i => loadWord swapped i.val)
  cf w (wToW1 w) v

def sm3Compress (md : Sm3State) : Sm3State :=
  { md with state := compressBlock md.buf md.state, buf := bigEndian md.buf }

/-! ## Streaming -/

def sm3ProcessByte (md : Sm3State) (byte : UInt8) : Sm3State :=
  let md' := { md with buf := md.buf.set md.curlen byte }
  if full : md.curlen.val + 1 < 64 then
    { md' with curlen := ⟨md.curlen.val + 1, full⟩ }
  else
    { sm3Compress md' with length := md.length + 512, curlen := 0 }

def sm3Process (md : Sm3State) : List UInt8 → Sm3State
  | [] => md
  | byte :: rest => sm3Process (sm3ProcessByte md byte) rest

def zeroFill (buf : Bytes 64) (curlen stop : Nat) : Bytes 64 :=
  forRange curlen (stop - curlen) (fun i buf => buf.set! i 0) buf

/-- The chaining value copied out and byte-swapped, most significant byte of
each word first. -/
def sm3Digest (v : Vector UInt32 8) : Bytes 32 :=
  bigEndian (Vector.ofFn fun i => (v[i.val / 4] >>> (8 * (i.val % 4)).toUInt32).toUInt8)

/-- The last eight bytes of the final block: four zeros and the bit length. -/
def putLength (buf : Bytes 64) (length : UInt32) : Bytes 64 :=
  let buf := forRange 56 4 (fun i buf => buf.set! i 0) buf
  let buf := buf.set! 63 (lowByte length)
  let buf := buf.set! 62 (lowByte (length >>> 8))
  let buf := buf.set! 61 (lowByte (length >>> 16))
  buf.set! 60 (lowByte (length >>> 24))

def sm3Done (md : Sm3State) : Bytes 32 :=
  let length := md.length + md.curlen.val.toUInt32 <<< 3
  let buf := md.buf.set md.curlen 0x80
  let curlen := md.curlen.val + 1
  -- no room for the length: the marker closes a block of its own
  let (state, buf, curlen) :=
    if curlen > 56 then
      let closed := zeroFill buf curlen 64
      (compressBlock closed md.state, bigEndian closed, 0)
    else (md.state, buf, curlen)
  sm3Digest (compressBlock (putLength (zeroFill buf curlen 56) length) state)

def sm3_256 (staleBuf : Bytes 64) (message : List UInt8) : Bytes 32 :=
  sm3Done (sm3Process (sm3Init staleBuf) message)

/-! ## The blocks that `SM3_compress` is called on -/

def sm3ByteBlocks (md : Sm3State) (byte : UInt8) : List (Bytes 64) :=
  if md.curlen.val + 1 < 64 then [] else [md.buf.set md.curlen byte]

def sm3ProcessBlocks (md : Sm3State) : List UInt8 → List (Bytes 64)
  | [] => []
  | byte :: rest => sm3ByteBlocks md byte ++ sm3ProcessBlocks (sm3ProcessByte md byte) rest

def sm3DoneBlocks (md : Sm3State) : List (Bytes 64) :=
  let length := md.length + md.curlen.val.toUInt32 <<< 3
  let buf := md.buf.set md.curlen 0x80
  let curlen := md.curlen.val + 1
  if curlen > 56 then
    let closed := zeroFill buf curlen 64
    [closed, putLength (zeroFill (bigEndian closed) 0 56) length]
  else [putLength (zeroFill buf curlen 56) length]

end Penglai.Gm

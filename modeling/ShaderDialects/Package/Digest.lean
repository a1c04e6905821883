namespace ShaderDialects.Package

structure Digest where
  bytes : List UInt8
  deriving DecidableEq

namespace Digest

abbrev Words (n : Nat) := Vector UInt32 n

def initial : Words 8 :=
  #v[0x6A09E667, 0xBB67AE85, 0x3C6EF372, 0xA54FF53A, 0x510E527F, 0x9B05688C, 0x1F83D9AB, 0x5BE0CD19]

def permutation : Vector (Fin 16) 16 := #v[2, 6, 3, 10, 7, 0, 4, 13, 1, 11, 12, 5, 9, 14, 15, 8]

def chunkStart : UInt32 := 1

def chunkEnd : UInt32 := 2

def parent : UInt32 := 4

def root : UInt32 := 8

def rotateRight (x : UInt32) (n : UInt32) : UInt32 := (x >>> n) ||| (x <<< (32 - n))

/-- Mixes two message words into four words of the state. -/
def quarter (s : Words 16) (a b c d : Fin 16) (x y : UInt32) : Words 16 :=
  let s := s.set a (s[a] + s[b] + x)
  let s := s.set d (rotateRight (s[d] ^^^ s[a]) 16)
  let s := s.set c (s[c] + s[d])
  let s := s.set b (rotateRight (s[b] ^^^ s[c]) 12)
  let s := s.set a (s[a] + s[b] + y)
  let s := s.set d (rotateRight (s[d] ^^^ s[a]) 8)
  let s := s.set c (s[c] + s[d])
  s.set b (rotateRight (s[b] ^^^ s[c]) 7)

def round (s m : Words 16) : Words 16 :=
  let s := quarter s 0 4 8 12 m[0] m[1]
  let s := quarter s 1 5 9 13 m[2] m[3]
  let s := quarter s 2 6 10 14 m[4] m[5]
  let s := quarter s 3 7 11 15 m[6] m[7]
  let s := quarter s 0 5 10 15 m[8] m[9]
  let s := quarter s 1 6 11 12 m[10] m[11]
  let s := quarter s 2 7 8 13 m[12] m[13]
  quarter s 3 4 9 14 m[14] m[15]

def permute (m : Words 16) : Words 16 := permutation.map fun i => m[i]

def rounds : Nat → Words 16 → Words 16 → Words 16
  | 0, s, _ => s
  | n + 1, s, m => rounds n (round s m) (permute m)

def compress (chain : Words 8) (block : Words 16) (counter : UInt64) (length flags : UInt32) :
    Words 8 :=
  let start : Words 16 := chain ++ #v[initial[0], initial[1], initial[2], initial[3],
    counter.toUInt32, (counter >>> 32).toUInt32, length, flags]
  let s := rounds 7 start block
  Vector.ofFn fun (i : Fin 8) => s[i] ^^^ s[i.val + 8]

def byteAt (data : ByteArray) (i : Nat) : UInt32 :=
  if h : i < data.size then data[i].toUInt32 else 0

def blockAt (data : ByteArray) (start length : Nat) : Words 16 :=
  Vector.ofFn fun (i : Fin 16) =>
    let byte (k : Nat) : UInt32 :=
      if 4 * i.val + k < length then byteAt data (start + 4 * i.val + k) else 0
    byte 0 ||| (byte 1 <<< 8) ||| (byte 2 <<< 16) ||| (byte 3 <<< 24)

/-- The chaining value of a chunk, block after block. -/
def chunk (data : ByteArray) (index : Nat) (extra : UInt32) : Words 8 :=
  let start := 1024 * index
  let length := min 1024 (data.size - start)
  let blocks := max 1 ((length + 63) / 64)
  (List.range blocks).foldl (fun chain i =>
    let size := min 64 (length - 64 * i)
    let flags := (if i = 0 then chunkStart else 0)
      ||| (if i + 1 = blocks then chunkEnd ||| extra else 0)
    compress chain (blockAt data (start + 64 * i) size) index.toUInt64 size.toUInt32 flags) initial

/-- The greatest power of two below `n`, which is the number of chunks on the left. -/
def leftChunks (n : Nat) : Nat := Nat.pow 2 (Nat.log2 (n - 1))

/-- The chaining value of the subtree with `n` chunks from `index` on. As many levels as chunks are
enough for any tree. -/
def subtree (data : ByteArray) : Nat → Nat → Nat → UInt32 → Words 8
  | 0, index, _, extra => chunk data index extra
  | level + 1, index, n, extra =>
      if n ≤ 1 then chunk data index extra
      else
        let left := subtree data level index (leftChunks n) 0
        let right := subtree data level (index + leftChunks n) (n - leftChunks n) 0
        compress initial (left ++ right) 0 64 (parent ||| extra)

def wordBytes (w : UInt32) : List UInt8 :=
  [w.toUInt8, (w >>> 8).toUInt8, (w >>> 16).toUInt8, (w >>> 24).toUInt8]

def ofBytes (data : ByteArray) : Digest :=
  let chunks := max 1 ((data.size + 1023) / 1024)
  ⟨(subtree data chunks 0 chunks root).toList.flatMap wordBytes⟩

def hexDigit (n : Nat) : Char :=
  if n < 10 then Char.ofNat (48 + n) else Char.ofNat (87 + n)

def text (d : Digest) : String :=
  String.ofList (d.bytes.flatMap fun b => [hexDigit (b.toNat / 16), hexDigit (b.toNat % 16)])

end Digest

end ShaderDialects.Package

import Mathlib.Data.Nat.Notation
import Mathlib.Tactic

/-! MD5 as `md5.c` computes it, and its two callers: `make.md5`, which has the string in one
piece, and `make.file.md5`, which reads 4096 bytes at a time. -/
namespace Presto

/-- `MD5_CTX` -/
structure Md5Ctx where
  i : UInt32 × UInt32
  buf : UInt32 × UInt32 × UInt32 × UInt32
  inBytes : Vector UInt8 64
  digest : Vector UInt8 16
  deriving DecidableEq

namespace Md5

def F (x y z : UInt32) : UInt32 := (x &&& y) ||| (~~~x &&& z)
def G (x y z : UInt32) : UInt32 := (x &&& z) ||| (y &&& ~~~z)
def H (x y z : UInt32) : UInt32 := x ^^^ y ^^^ z
def I (x y z : UInt32) : UInt32 := y ^^^ (x ||| ~~~z)

def rotateLeft (x n : UInt32) : UInt32 := (x <<< n) ||| (x >>> (32-n))

/-- One line of `MD5Transform`, `FF(a,b,c,d,in[k],s,ac)` or one of its kind. The next line has the
variables in the order d, a, b, c. -/
def line (f : UInt32 → UInt32 → UInt32 → UInt32) (x : Vector UInt32 16) :
    UInt32 × UInt32 × UInt32 × UInt32 → Fin 16 × UInt32 × UInt32 →
      UInt32 × UInt32 × UInt32 × UInt32
  | (a,b,c,d),(k,s,ac) => (d,rotateLeft (a+f b c d+x[k]+ac) s+b,b,c)

def round1 : List (Fin 16 × UInt32 × UInt32) := [
  (0,7,3614090360),(1,12,3905402710),(2,17,606105819),(3,22,3250441966),
  (4,7,4118548399),(5,12,1200080426),(6,17,2821735955),(7,22,4249261313),
  (8,7,1770035416),(9,12,2336552879),(10,17,4294925233),(11,22,2304563134),
  (12,7,1804603682),(13,12,4254626195),(14,17,2792965006),(15,22,1236535329)]

def round2 : List (Fin 16 × UInt32 × UInt32) := [
  (1,5,4129170786),(6,9,3225465664),(11,14,643717713),(0,20,3921069994),
  (5,5,3593408605),(10,9,38016083),(15,14,3634488961),(4,20,3889429448),
  (9,5,568446438),(14,9,3275163606),(3,14,4107603335),(8,20,1163531501),
  (13,5,2850285829),(2,9,4243563512),(7,14,1735328473),(12,20,2368359562)]

def round3 : List (Fin 16 × UInt32 × UInt32) := [
  (5,4,4294588738),(8,11,2272392833),(11,16,1839030562),(14,23,4259657740),
  (1,4,2763975236),(4,11,1272893353),(7,16,4139469664),(10,23,3200236656),
  (13,4,681279174),(0,11,3936430074),(3,16,3572445317),(6,23,76029189),
  (9,4,3654602809),(12,11,3873151461),(15,16,530742520),(2,23,3299628645)]

def round4 : List (Fin 16 × UInt32 × UInt32) := [
  (0,6,4096336452),(7,10,1126891415),(14,15,2878612391),(5,21,4237533241),
  (12,6,1700485571),(3,10,2399980690),(10,15,4293915773),(1,21,2240044497),
  (8,6,1873313359),(15,10,4264355552),(6,15,2734768916),(13,21,1309151649),
  (4,6,4149444226),(11,10,3174756917),(2,15,718787259),(9,21,3951481745)]

/-- `MD5Transform(buf,in)` -/
def transform (buf : UInt32 × UInt32 × UInt32 × UInt32) (x : Vector UInt32 16) :
    UInt32 × UInt32 × UInt32 × UInt32 :=
  let r1 := round1.foldl (line F x) buf
  let r2 := round2.foldl (line G x) r1
  let r3 := round3.foldl (line H x) r2
  let r4 := round4.foldl (line I x) r3
  (buf.1+r4.1,buf.2.1+r4.2.1,buf.2.2.1+r4.2.2.1,buf.2.2.2+r4.2.2.2)

/-- `in[i]` from the bytes at `ii = 4*i`. -/
def word (bytes : Vector UInt8 64) (i : Fin 16) : UInt32 :=
  (bytes[4*i.val+3].toUInt32 <<< 24) ||| (bytes[4*i.val+2].toUInt32 <<< 16) |||
    (bytes[4*i.val+1].toUInt32 <<< 8) ||| bytes[4*i.val].toUInt32

/-- `MD5Init`; what the context held before stays in its buffers. -/
def init (c : Md5Ctx) : Md5Ctx :=
  { c with i := (0,0), buf := (0x67452301,0xefcdab89,0x98badcfe,0x10325476) }

/-- `mdi`, the number of bytes mod 64. -/
def position (c : Md5Ctx) : Fin 64 := Fin.ofNat 64 ((c.i.1 >>> 3) &&& 0x3F).toNat

/-- The update of the number of bits. -/
def count (i : UInt32 × UInt32) (inLen : UInt32) : UInt32 × UInt32 :=
  (i.1+(inLen <<< 3),(if i.1+(inLen <<< 3) < i.1 then i.2+1 else i.2)+(inLen >>> 29))

/-- One pass of the loop of `MD5Update`; `mdi` goes from 0x40 back to 0. -/
def absorb : Md5Ctx × Fin 64 → UInt8 → Md5Ctx × Fin 64
  | (c,mdi),b =>
    let bytes := c.inBytes.set mdi b
    if mdi.val+1 = 0x40 then
      ({ c with inBytes := bytes, buf := transform c.buf (Vector.ofFn (word bytes)) },0)
    else ({ c with inBytes := bytes },mdi+1)

/-- `MD5Update(c,inBuf,inLen)` -/
def update (c : Md5Ctx) (inBuf : List UInt8) (inLen : UInt32) : Md5Ctx :=
  ((inBuf.take inLen.toNat).foldl absorb ({ c with i := count c.i inLen },position c)).1

def PADDING : List UInt8 := 0x80::List.replicate 63 0

/-- `padLen`: the padding goes up to 56 mod 64. -/
def padLen (mdi : Fin 64) : ℕ := if mdi.val < 56 then 56-mdi.val else 120-mdi.val

/-- The last block has the number of bits in its last two words. -/
def lastBlock (i : UInt32 × UInt32) (bytes : Vector UInt8 64) : Vector UInt32 16 :=
  Vector.ofFn fun k => if k = 14 then i.1 else if k = 15 then i.2 else word bytes k

/-- The bytes of a word of `buf` in `digest`. -/
def bytesOf (w : UInt32) : Vector UInt8 4 :=
  #v[(w &&& 0xFF).toUInt8,((w >>> 8) &&& 0xFF).toUInt8,((w >>> 16) &&& 0xFF).toUInt8,
    ((w >>> 24) &&& 0xFF).toUInt8]

def digestOf (buf : UInt32 × UInt32 × UInt32 × UInt32) : Vector UInt8 16 :=
  bytesOf buf.1++bytesOf buf.2.1++bytesOf buf.2.2.1++bytesOf buf.2.2.2

/-- `MD5Final` -/
def final (c : Md5Ctx) : Md5Ctx :=
  let u := update c PADDING (UInt32.ofNat (padLen (position c)))
  let buf := transform u.buf (lastBlock c.i u.inBytes)
  { u with buf := buf, digest := digestOf buf }

def hexchars : Vector Char 16 :=
  #v['0','1','2','3','4','5','6','7','8','9','a','b','c','d','e','f']

/-- `lua_pushhex` -/
def pushhex (digest : Vector UInt8 16) : List Char :=
  digest.toList.flatMap fun b : UInt8 =>
    [hexchars[Fin.ofNat 16 ((b &&& 0xf0) >>> 4).toNat],hexchars[Fin.ofNat 16 (b &&& 0x0f).toNat]]

end Md5
open Md5

/-- `make.md5(string)`; `c` is what the stack held in the place of the context. -/
def makeMd5 (c : Md5Ctx) (string : List UInt8) : List Char :=
  pushhex (final (update (init c) string (UInt32.ofNat string.length))).digest

/-- The loop of `make_file_md5` with the part of the file that has not been read yet. -/
def updateFile (c : Md5Ctx) (file : List UInt8) : Md5Ctx :=
  let buffer := file.take 4096
  let c := update c buffer (UInt32.ofNat buffer.length)
  if buffer.length = 4096 then updateFile c (file.drop 4096) else c
termination_by file.length
decreasing_by
  rename_i h
  simp only [buffer,List.length_take] at h
  simp only [List.length_drop]
  omega

/-- `make.file.md5(path)` for a file that can be read. -/
def makeFileMd5 (c : Md5Ctx) (file : List UInt8) : List Char :=
  pushhex (final (updateFile (init c) file)).digest

example : makeMd5 ⟨(0,0),(0,0,0,0),Vector.replicate 64 0,Vector.replicate 16 0⟩ [97,98,99] =
    "900150983cd24fb0d6963f7d28e17f72".toList := by decide +kernel

end Presto

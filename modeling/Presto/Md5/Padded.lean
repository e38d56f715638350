import Presto.Md5.Reads
import Presto.Program.Blocks
import Mathlib.Data.List.GetD

/-! What is hashed: the blocks of the padded message. The context only keeps the part of a block
that has come so far, and `MD5Final` adds the padding to it. -/
namespace Presto
open Program
namespace Md5

/-- Four bytes of a block as a word, the least significant byte first. -/
def wordOf (block : List UInt8) (k : ℕ) : UInt32 := UInt32.ofNat
  ((block.getD (4*k) 0).toNat+2^8*(block.getD (4*k+1) 0).toNat+2^16*(block.getD (4*k+2) 0).toNat+
    2^24*(block.getD (4*k+3) 0).toNat)

/-- A block of 64 bytes goes into the state. -/
def compress (buf : UInt32 × UInt32 × UInt32 × UInt32) (block : List UInt8) :
    UInt32 × UInt32 × UInt32 × UInt32 := transform buf (Vector.ofFn fun k => wordOf block k)

/-- The number of zeros after the byte 0x80: 56 bytes are in the last block then. -/
def zeros (n : ℕ) : ℕ := (119-n%64)%64

/-- The number of bits of `n` bytes, in eight bytes with the least significant one first. -/
def lengthBytes (n : ℕ) : List UInt8 := (List.range 8).map fun j => UInt8.ofNat (8*n/2^(8*j))

def padded (s : List UInt8) : List UInt8 :=
  s++(0x80::List.replicate (zeros s.length) 0)++lengthBytes s.length

/-- The digest of a message in one piece. -/
def digestOfMessage (s : List UInt8) : Vector UInt8 16 :=
  digestOf ((blocks 64 (padded s)).foldl compress (0x67452301,0xefcdab89,0x98badcfe,0x10325476))

theorem padded_length (s : List UInt8) : 64 ∣ (padded s).length := by
  unfold padded zeros lengthBytes
  simp only [List.length_append,List.length_cons,List.length_replicate,List.length_map,List.length_range]
  omega

theorem or_bytes (a b c d : UInt8) :
    (d.toUInt32 <<< 24) ||| (c.toUInt32 <<< 16) ||| (b.toUInt32 <<< 8) ||| a.toUInt32 =
      UInt32.ofNat (a.toNat+2^8*b.toNat+2^16*c.toNat+2^24*d.toNat) := by
  have ha := a.toNat_lt
  have hb := b.toNat_lt
  have hc := c.toNat_lt
  have hd := d.toNat_lt
  have hor : ∀ x {y} i, y < 2^i → 2^i*x ||| y = 2^i*x+y := fun x y i h => (Nat.two_pow_add_eq_or_of_lt h x).symm
  have h8 : 2^8*b.toNat ||| a.toNat = 2^8*b.toNat+a.toNat := hor _ 8 ha
  have h16 : 2^16*c.toNat ||| (2^8*b.toNat+a.toNat) = 2^16*c.toNat+(2^8*b.toNat+a.toNat) := hor _ 16 (by omega)
  have h24 : 2^24*d.toNat ||| (2^16*c.toNat+(2^8*b.toNat+a.toNat)) =
      2^24*d.toNat+(2^16*c.toNat+(2^8*b.toNat+a.toNat)) := hor _ 24 (by omega)
  have hshift : ∀ (x : UInt8) (n : UInt32), n.toNat < 32 → x.toNat*2^n.toNat < 2^32 →
      (x.toUInt32 <<< n).toNat = 2^n.toNat*x.toNat := by
    intro x n hn hx
    rw [UInt32.toNat_shiftLeft,UInt8.toNat_toUInt32,Nat.mod_eq_of_lt hn,Nat.shiftLeft_eq,Nat.mod_eq_of_lt hx,
      Nat.mul_comm]
  have e8 : (b.toUInt32 <<< 8).toNat = 2^8*b.toNat := hshift b 8 (by decide) (by change b.toNat*2^8 < _; omega)
  have e16 : (c.toUInt32 <<< 16).toNat = 2^16*c.toNat := hshift c 16 (by decide) (by change c.toNat*2^16 < _; omega)
  have e24 : (d.toUInt32 <<< 24).toNat = 2^24*d.toNat := hshift d 24 (by decide) (by change d.toNat*2^24 < _; omega)
  have hlt : a.toNat+2^8*b.toNat+2^16*c.toNat+2^24*d.toNat < 2^32 := by omega
  apply UInt32.toNat_inj.mp
  rw [UInt32.toNat_or,UInt32.toNat_or,UInt32.toNat_or,e8,e16,e24,UInt8.toNat_toUInt32,Nat.or_assoc,Nat.or_assoc,
    h8,h16,h24,UInt32.toNat_ofNat_of_lt' hlt]
  omega

theorem word_eq (v : Vector UInt8 64) (k : Fin 16) : word v k = wordOf v.toList k := by
  have hget : ∀ j (hj : j < 64), v.toList.getD j 0 = v[j] := fun j hj => by simp [hj]
  unfold word wordOf
  rw [or_bytes,hget _ (by omega),hget _ (by omega),hget _ (by omega),hget _ (by omega)]

theorem transform_eq (buf : UInt32 × UInt32 × UInt32 × UInt32) (v : Vector UInt8 64) :
    transform buf (Vector.ofFn (word v)) = compress buf v.toList := by
  unfold compress
  rw [funext (word_eq v)]

/-- The context holds the state of the blocks and the part of a block that has come so far. -/
structure Holds (p : Md5Ctx × Fin 64) (q : (UInt32 × UInt32 × UInt32 × UInt32) × List UInt8) : Prop where
  buf : p.1.buf = q.1
  mdi : q.2.length = p.2.val
  bytes : p.1.inBytes.toList.take p.2.val = q.2

theorem take_set (v : Vector UInt8 64) (mdi : Fin 64) (b : UInt8) :
    (v.set mdi.val b mdi.isLt).toList.take (mdi.val+1) = v.toList.take mdi.val++[b] := by
  have hlen : mdi.val < v.toList.length := by simp
  have hmin : (v.toList.take mdi.val).length = mdi.val := by simp
  rw [Vector.toList_set,List.set_eq_take_append_cons_drop,if_pos hlen,List.take_append,hmin,List.take_of_length_le
    (by rw [hmin]; omega),Nat.add_sub_cancel_left]
  rfl

theorem Holds.absorb {p : Md5Ctx × Fin 64} {q : (UInt32 × UInt32 × UInt32 × UInt32) × List UInt8} (h : Holds p q)
    (b : UInt8) : Holds (absorb p b) (drip 64 compress q b) := by
  obtain ⟨c,mdi⟩ := p
  obtain ⟨buf,part⟩ := q
  obtain ⟨hbuf,hmdi,hbytes⟩ := h
  dsimp only at hbuf hmdi hbytes
  have hset := take_set c.inBytes mdi b
  rw [hbytes] at hset
  by_cases hfull : mdi.val+1 = 0x40
  · have hall : (c.inBytes.set mdi b).toList = part++[b] := by
      rw [← hset,List.take_of_length_le]
      rw [Vector.length_toList]
      omega
    simp only [Md5.absorb,if_pos hfull,drip]
    rw [if_pos (by rw [hmdi]; exact hfull)]
    exact ⟨by rw [transform_eq,hall,hbuf],rfl,rfl⟩
  · have hlt := mdi.isLt
    have hval : (mdi+1).val = mdi.val+1 := Fin.val_add_one_of_lt (Fin.lt_def.mpr (by simp; omega))
    simp only [Md5.absorb,if_neg hfull,drip]
    rw [if_neg (by rw [hmdi]; exact hfull)]
    exact ⟨hbuf,by rw [List.length_append,hmdi,hval]; rfl,by rw [hval]; exact hset⟩

theorem Holds.foldl {p : Md5Ctx × Fin 64} {q : (UInt32 × UInt32 × UInt32 × UInt32) × List UInt8} (h : Holds p q)
    (s : List UInt8) : Holds (s.foldl Md5.absorb p) (s.foldl (drip 64 compress) q) := by
  induction s generalizing p q with
  | nil => exact h
  | cons b s ih => exact ih (h.absorb b)

theorem holds_init (d : Md5Ctx) : Holds (init d,position (init d)) ((init d).buf,[]) :=
  ⟨rfl,by simp [position,init],by simp [position,init]⟩

theorem Holds.update {c : Md5Ctx} {q : (UInt32 × UInt32 × UInt32 × UInt32) × List UInt8}
    (h : Holds (c,position c) q) {s : List UInt8} (hs : s.length < 2^32) :
    Holds (update c s (UInt32.ofNat s.length),position (update c s (UInt32.ofNat s.length)))
      (s.foldl (drip 64 compress) q) := by
  have hf := h.foldl s
  rw [update_position hs,update_eq hs]
  exact ⟨hf.buf,hf.mdi,hf.bytes⟩

theorem bits_update {s : List UInt8} (hs : s.length < 2^32) (c : Md5Ctx) :
    bits (update c s (UInt32.ofNat s.length)).i = (bits c.i+8*s.length)%2^64 := by
  rw [update_eq hs,bits_count,toNat_ofLength hs]

/-- `MD5Update` for each of the pieces in turn. -/
def updates (c : Md5Ctx) (pieces : List (List UInt8)) : Md5Ctx :=
  pieces.foldl (fun c s => update c s (UInt32.ofNat s.length)) c

theorem updates_holds (pieces : List (List UInt8)) (h : ∀ s ∈ pieces, s.length < 2^32) {c : Md5Ctx}
    {q : (UInt32 × UInt32 × UInt32 × UInt32) × List UInt8} (hc : Holds (c,position c) q) :
    Holds (updates c pieces,position (updates c pieces)) (pieces.flatten.foldl (drip 64 compress) q) ∧
      bits (updates c pieces).i%2^64 = (bits c.i+8*pieces.flatten.length)%2^64 := by
  induction pieces generalizing c q with
  | nil => exact ⟨hc,rfl⟩
  | cons s pieces ih =>
    have hs := h s List.mem_cons_self
    obtain ⟨hholds,hbits⟩ := ih (fun t ht => h t (List.mem_cons_of_mem _ ht)) (hc.update hs)
    rw [List.flatten_cons,List.foldl_append,List.length_append]
    refine ⟨hholds,hbits.trans ?_⟩
    rw [bits_update hs]
    omega

theorem padding_eq (n : ℕ) (mdi : Fin 64) (h : mdi.val = n%64) :
    PADDING.take (UInt32.ofNat (padLen mdi)).toNat = 0x80::List.replicate (zeros n) 0 := by
  have hlen : padLen mdi = zeros n+1 := by
    unfold padLen zeros
    split_ifs <;> omega
  have hle : zeros n ≤ 63 := by
    unfold zeros
    omega
  rw [UInt32.toNat_ofNat_of_lt' (show padLen mdi < 2^32 by omega),hlen,PADDING,List.take_succ_cons,
    List.take_replicate,Nat.min_eq_left hle]

theorem lengthBytes_length (n : ℕ) : (lengthBytes n).length = 8 := by simp [lengthBytes]

theorem lengthBytes_getD (n j : ℕ) (h : j < 8) : (lengthBytes n).getD j 0 = UInt8.ofNat (8*n/2^(8*j)) := by
  simp [lengthBytes,h]

/-- The last two words are the number of bits. -/
theorem wordOf_length {part : List UInt8} (hpart : part.length = 56) {i : UInt32 × UInt32} {n : ℕ}
    (hi : bits i = 8*n%2^64) :
    wordOf (part++lengthBytes n) 14 = i.1 ∧ wordOf (part++lengthBytes n) 15 = i.2 := by
  have h1 := i.1.toNat_lt
  have h2 := i.2.toNat_lt
  have hget : ∀ j, j < 8 → ((part++lengthBytes n).getD (56+j) 0).toNat = 8*n/2^(8*j)%2^8 := by
    intro j hj
    rw [List.getD_append_right _ _ _ _ (by omega),hpart,Nat.add_sub_cancel_left,lengthBytes_getD n j hj]
    exact UInt8.toNat_ofNat'
  unfold bits at hi
  unfold wordOf
  constructor
  · rw [show 4*14 = 56+0 from rfl,show 56+0+1 = 56+1 from rfl,show 56+0+2 = 56+2 from rfl,
      show 56+0+3 = 56+3 from rfl,hget 0 (by decide),hget 1 (by decide),hget 2 (by decide),hget 3 (by decide)]
    apply UInt32.toNat_inj.mp
    rw [UInt32.toNat_ofNat']
    omega
  · rw [show 4*15 = 56+4 from rfl,show 56+4+1 = 56+5 from rfl,show 56+4+2 = 56+6 from rfl,
      show 56+4+3 = 56+7 from rfl,hget 4 (by decide),hget 5 (by decide),hget 6 (by decide),hget 7 (by decide)]
    apply UInt32.toNat_inj.mp
    rw [UInt32.toNat_ofNat']
    omega

/-- `MD5Final` makes the last block of the 56 bytes in the context and the counter. -/
theorem lastBlock_eq {v : Vector UInt8 64} {part : List UInt8} (hpart : part.length = 56)
    (hv : v.toList.take 56 = part) {i : UInt32 × UInt32} {n : ℕ} (hi : bits i = 8*n%2^64) :
    lastBlock i v = Vector.ofFn fun k : Fin 16 => wordOf (part++lengthBytes n) k := by
  have hget : ∀ j, j < 56 → v.toList.getD j 0 = (part++lengthBytes n).getD j 0 := by
    intro j hj
    rw [List.getD_append _ _ _ _ (by omega),← hv,List.getD_eq_getElem?_getD,List.getD_eq_getElem?_getD,
      List.getElem?_take_of_lt hj]
  refine congrArg Vector.ofFn (funext fun k => ?_)
  have hlt := k.isLt
  split_ifs with h14 h15
  · rw [h14]
    exact (wordOf_length hpart hi).1.symm
  · rw [h15]
    exact (wordOf_length hpart hi).2.symm
  · have hk : k.val < 14 := by omega
    rw [word_eq]
    unfold wordOf
    rw [hget _ (by omega),hget _ (by omega),hget _ (by omega),hget _ (by omega)]

/-- `MD5Final` after a message adds the padding and the last block. -/
theorem final_eq {c : Md5Ctx} {s : List UInt8} {buf : UInt32 × UInt32 × UInt32 × UInt32}
    (h : Holds (c,position c) (s.foldl (drip 64 compress) (buf,[]))) (hbits : bits c.i = 8*s.length%2^64)
    (hpos : (position c).val = s.length%64) :
    (final c).buf = (blocks 64 (padded s)).foldl compress buf := by
  have hpad := padding_eq s.length (position c) hpos
  have hu := h.foldl (PADDING.take (UInt32.ofNat (padLen (position c))).toNat)
  have hsnd := foldl_absorb_snd (PADDING.take (UInt32.ofNat (padLen (position c))).toNat) (c,position c)
  rw [pad_position] at hsnd
  rw [hpad,← List.foldl_append] at hu
  set q := (s++0x80::List.replicate (zeros s.length) 0).foldl (drip 64 compress) (buf,[]) with hq
  have hmdi := hu.mdi
  rw [← hpad,hsnd] at hmdi
  have hbytes := hu.bytes
  rw [← hpad,hsnd] at hbytes
  have hlast := lastBlock_eq hmdi hbytes hbits
  have hfill : (padded s).foldl (drip 64 compress) (buf,[]) = (compress q.1 (q.2++lengthBytes s.length),[]) := by
    unfold padded
    rw [List.foldl_append,← hq]
    apply foldl_drip_fill
    · exact List.ne_nil_of_length_pos (by rw [lengthBytes_length]; decide)
    · rw [hmdi,lengthBytes_length]
  have hblocks := foldl_drip_of_dvd (by decide) compress buf (padded_length s)
  rw [hfill] at hblocks
  have hbuf := hu.buf
  rw [← hpad] at hbuf
  have hfst : compress q.1 (q.2++lengthBytes s.length) = (blocks 64 (padded s)).foldl compress buf :=
    (Prod.mk.inj hblocks).1
  unfold final
  dsimp only
  unfold update
  rw [foldl_absorb_withCount]
  dsimp only
  rw [hlast,hbuf]
  exact hfst

theorem final_updates (d : Md5Ctx) {pieces : List (List UInt8)} (h : ∀ s ∈ pieces, s.length < 2^32) :
    (final (updates (init d) pieces)).digest = digestOfMessage pieces.flatten := by
  obtain ⟨hholds,hbits⟩ := updates_holds pieces h (holds_init d)
  have h1 := (updates (init d) pieces).i.1.toNat_lt
  have h2 := (updates (init d) pieces).i.2.toNat_lt
  have hcount : bits (updates (init d) pieces).i = 8*pieces.flatten.length%2^64 := by
    have hzero : bits (init d).i = 0 := rfl
    have hlt : bits (updates (init d) pieces).i < 2^64 := by
      unfold bits
      omega
    rw [hzero,Nat.zero_add,Nat.mod_eq_of_lt hlt] at hbits
    exact hbits
  have hpos : (position (updates (init d) pieces)).val = pieces.flatten.length%64 := by
    rw [position_val]
    unfold bits at hcount
    omega
  exact congrArg digestOf (final_eq hholds hcount hpos)

end Md5
open Md5

/-- However a message is cut into calls of `MD5Update`, the digest is that of the blocks of the padded
message. -/
theorem digest_of_pieces (d : Md5Ctx) (pieces : List (List UInt8)) (h : ∀ s ∈ pieces, s.length < 2^32) :
    (final (updates (init d) pieces)).digest = digestOf ((blocks 64 (padded pieces.flatten)).foldl compress
      (0x67452301,0xefcdab89,0x98badcfe,0x10325476)) :=
  final_updates d h

theorem digest_of_pieces_abc :
    (final (updates (init ⟨(0,0),(0,0,0,0),Vector.replicate 64 0,Vector.replicate 16 0⟩) [[97],[],[98,99]])).digest =
      digestOf ((blocks 64 (padded [[97],[],[98,99]].flatten)).foldl compress
        (0x67452301,0xefcdab89,0x98badcfe,0x10325476)) :=
  digest_of_pieces _ [[97],[],[98,99]] (by decide)

end Presto

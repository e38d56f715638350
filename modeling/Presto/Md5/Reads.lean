import Presto.Md5

/-! A file is hashed like a string: the context does not depend on how the bytes are cut into
calls of `MD5Update`, and the digest does not depend on what the context held before. -/
namespace Presto
namespace Md5

theorem count_fst (i : UInt32 × UInt32) (n : UInt32) :
    (count i n).1.toNat = (i.1.toNat+8*n.toNat)%2^32 := by
  simp only [count,UInt32.toNat_add,UInt32.toNat_shiftLeft,Nat.shiftLeft_eq]
  simp
  omega

/-- The counter is a number of 64 bits in two words. -/
def bits (i : UInt32 × UInt32) : ℕ := i.1.toNat+2^32*i.2.toNat

theorem bits_injective {i j : UInt32 × UInt32} (h : bits i = bits j) : i = j := by
  have h1 := i.1.toNat_lt
  have h2 := j.1.toNat_lt
  unfold bits at h
  exact Prod.ext (UInt32.toNat_inj.mp (by omega)) (UInt32.toNat_inj.mp (by omega))

/-- The carry goes from the one word to the other. -/
theorem bits_count (i : UInt32 × UInt32) (n : UInt32) : bits (count i n) = (bits i+8*n.toNat)%2^64 := by
  have h1 := i.1.toNat_lt
  have h2 := i.2.toNat_lt
  have hn := n.toNat_lt
  have hfst := count_fst i n
  have hcarry : i.1+(n <<< 3) < i.1 ↔ 2^32 ≤ i.1.toNat+8*n.toNat%2^32 := by
    have heq : (i.1+(n <<< 3)).toNat = (i.1.toNat+8*n.toNat)%2^32 := hfst
    rw [UInt32.lt_iff_toNat_lt,heq]
    omega
  have hsnd : (count i n).2.toNat =
      (i.2.toNat+(if 2^32 ≤ i.1.toNat+8*n.toNat%2^32 then 1 else 0)+n.toNat/2^29)%2^32 := by
    have hshift : (n >>> 29).toNat = n.toNat/2^29 := by
      simp [UInt32.toNat_shiftRight,Nat.shiftRight_eq_div_pow]
    simp only [count,hcarry,UInt32.toNat_add,hshift]
    split_ifs
    · simp
    · simp
  unfold bits
  rw [hfst,hsnd]
  split_ifs <;> omega

theorem count_add (i : UInt32 × UInt32) {m n : UInt32} (h : m.toNat+n.toNat < 2^32) :
    count (count i m) n = count i (m+n) := by
  apply bits_injective
  rw [bits_count,bits_count,bits_count,UInt32.toNat_add,Nat.mod_eq_of_lt h]
  omega

theorem position_val (c : Md5Ctx) : (position c).val = c.i.1.toNat/8%64 := by
  have hmask : ∀ x : ℕ, x &&& 63 = x%64 := fun x => Nat.and_two_pow_sub_one_eq_mod x 6
  simp [position,UInt32.toNat_shiftRight,Nat.shiftRight_eq_div_pow,hmask]

theorem position_count (c : Md5Ctx) (n : UInt32) :
    (position { c with i := count c.i n }).val = ((position c).val+n.toNat)%64 := by
  rw [position_val,position_val,count_fst]
  omega

theorem absorb_snd (p : Md5Ctx × Fin 64) (b : UInt8) : (absorb p b).2.val = (p.2.val+1)%64 := by
  obtain ⟨c,mdi⟩ := p
  have hlt := mdi.isLt
  simp only [absorb]
  split_ifs with h
  · simp [h]
  · rw [Fin.val_add_one_of_lt (Fin.lt_def.mpr (by simp; omega))]
    omega

theorem foldl_absorb_snd (s : List UInt8) (p : Md5Ctx × Fin 64) :
    (s.foldl absorb p).2.val = (p.2.val+s.length)%64 := by
  induction s generalizing p with
  | nil => simp [Nat.mod_eq_of_lt p.2.isLt]
  | cons b s ih =>
    rw [List.foldl_cons,ih,absorb_snd,List.length_cons]
    omega

theorem absorb_withCount (c : Md5Ctx) (mdi : Fin 64) (i : UInt32 × UInt32) (b : UInt8) :
    absorb ({ c with i := i },mdi) b =
      ({ (absorb (c,mdi) b).1 with i := i },(absorb (c,mdi) b).2) := by
  by_cases h : mdi.val+1 = 0x40
  · simp only [absorb,if_pos h]
  · simp only [absorb,if_neg h]

/-- The loop does not look at the counter. -/
theorem foldl_absorb_withCount (s : List UInt8) (c : Md5Ctx) (mdi : Fin 64) (i : UInt32 × UInt32) :
    s.foldl absorb ({ c with i := i },mdi) =
      ({ (s.foldl absorb (c,mdi)).1 with i := i },(s.foldl absorb (c,mdi)).2) := by
  induction s generalizing c mdi with
  | nil => rfl
  | cons b s ih =>
    rw [List.foldl_cons,List.foldl_cons]
    rw [absorb_withCount]
    obtain ⟨d,k⟩ := absorb (c,mdi) b
    exact ih d k

theorem toNat_ofLength {s : List UInt8} (h : s.length < 2^32) :
    (UInt32.ofNat s.length).toNat = s.length := UInt32.toNat_ofNat_of_lt' h

/-- The context after a string in one piece. -/
theorem update_eq {s : List UInt8} (h : s.length < 2^32) (c : Md5Ctx) :
    update c s (UInt32.ofNat s.length) =
      { (s.foldl absorb (c,position c)).1 with i := count c.i (UInt32.ofNat s.length) } := by
  unfold update
  rw [toNat_ofLength h,List.take_length,foldl_absorb_withCount]

theorem update_position {s : List UInt8} (h : s.length < 2^32) (c : Md5Ctx) :
    position (update c s (UInt32.ofNat s.length)) = (s.foldl absorb (c,position c)).2 := by
  have hc := position_count c (UInt32.ofNat s.length)
  rw [toNat_ofLength h] at hc
  rw [update_eq h]
  apply Fin.ext
  rw [foldl_absorb_snd]
  exact hc

/-- Two calls of `MD5Update` are as good as one. -/
theorem update_append {s t : List UInt8} (h : (s++t).length < 2^32) (c : Md5Ctx) :
    update (update c s (UInt32.ofNat s.length)) t (UInt32.ofNat t.length) =
      update c (s++t) (UInt32.ofNat (s++t).length) := by
  rw [List.length_append] at h
  have hs : s.length < 2^32 := by omega
  have ht : t.length < 2^32 := by omega
  have hpos := update_position hs c
  rw [update_eq hs] at hpos
  have hcount : count (count c.i (UInt32.ofNat s.length)) (UInt32.ofNat t.length) =
      count c.i (UInt32.ofNat (s++t).length) := by
    rw [count_add c.i (by rw [toNat_ofLength hs,toNat_ofLength ht]; exact h),List.length_append,
      UInt32.ofNat_add]
  rw [update_eq hs,update_eq ht,update_eq (by rwa [List.length_append]),hpos,foldl_absorb_withCount,
    hcount,List.foldl_append]

/-- A file leaves the context that its contents leave in one call. -/
theorem updateFile_eq {s : List UInt8} (h : s.length < 2^32) (c : Md5Ctx) :
    updateFile c s = update c s (UInt32.ofNat s.length) := by
  induction hn : s.length using Nat.strong_induction_on generalizing s c with
  | _ n ih =>
    have hsplit : s.take 4096++s.drop 4096 = s := List.take_append_drop 4096 s
    have happ := update_append (by rw [hsplit]; exact h) c
    rw [hsplit] at happ
    have hlen : (s.take 4096).length = min 4096 s.length := List.length_take
    have hrest : (s.drop 4096).length = s.length-4096 := List.length_drop
    unfold updateFile
    dsimp only
    split_ifs with hfull
    · rw [ih (s.drop 4096).length (by omega) (by omega) _ rfl,happ,hn]
    · rw [List.take_of_length_le (by omega),hn]

/-- Two contexts that differ only in bytes that are not part of the message. -/
structure Alike (p q : Md5Ctx × Fin 64) : Prop where
  i : p.1.i = q.1.i
  buf : p.1.buf = q.1.buf
  mdi : p.2 = q.2
  bytes : ∀ j : Fin 64, j < p.2 → p.1.inBytes[j] = q.1.inBytes[j]

theorem set_alike {v w : Vector UInt8 64} {mdi : Fin 64} (h : ∀ j : Fin 64, j < mdi → v.get j = w.get j)
    (b : UInt8) (j : Fin 64) (hj : j.val < mdi.val+1) :
    (v.set mdi.val b mdi.isLt).get j = (w.set mdi.val b mdi.isLt).get j := by
  change (v.set mdi b)[j] = (w.set mdi b)[j]
  simp only [Fin.getElem_fin,Vector.getElem_set]
  split_ifs with hjm
  · rfl
  · exact h j (Fin.lt_def.mpr (by omega))

theorem Alike.absorb {p q : Md5Ctx × Fin 64} (h : Alike p q) (b : UInt8) :
    Alike (absorb p b) (absorb q b) := by
  obtain ⟨⟨i,buf,v,digest⟩,mdi⟩ := p
  obtain ⟨⟨i',buf',w,digest'⟩,mdi'⟩ := q
  obtain ⟨hi,hbuf,hmdi,hbytes⟩ := h
  dsimp only at hi hbuf hmdi hbytes
  subst hi hbuf hmdi
  have hset := set_alike hbytes b
  by_cases hfull : mdi.val+1 = 0x40
  · have heq : v.set mdi b = w.set mdi b :=
      Vector.ext fun j hj => hset ⟨j,hj⟩ (by dsimp only; omega)
    simp only [Md5.absorb,if_pos hfull,heq]
    exact ⟨rfl,rfl,rfl,fun j hj => absurd hj (Fin.not_lt_zero j)⟩
  · simp only [Md5.absorb,if_neg hfull]
    refine ⟨rfl,rfl,rfl,fun j hj => hset j ?_⟩
    have hlt := mdi.isLt
    have hval : (mdi+1).val = mdi.val+1 :=
      Fin.val_add_one_of_lt (Fin.lt_def.mpr (by simp; omega))
    exact hval ▸ Fin.lt_def.mp hj

theorem Alike.foldl {p q : Md5Ctx × Fin 64} (h : Alike p q) (s : List UInt8) :
    Alike (s.foldl Md5.absorb p) (s.foldl Md5.absorb q) := by
  induction s generalizing p q with
  | nil => exact h
  | cons b s ih => exact ih (h.absorb b)

theorem alike_init (c d : Md5Ctx) : Alike (init c,position (init c)) (init d,position (init d)) :=
  ⟨rfl,rfl,rfl,fun _ hj => absurd hj (by simp [position,init])⟩

theorem Alike.withCount {c d : Md5Ctx} {mdi k : Fin 64} (h : Alike (c,mdi) (d,k))
    (n : UInt32) : Alike ({ c with i := count c.i n },mdi) ({ d with i := count d.i n },k) :=
  ⟨by rw [show c.i = d.i from h.i],h.buf,h.mdi,h.bytes⟩

theorem Alike.update {c d : Md5Ctx} (h : Alike (c,position c) (d,position d)) {s : List UInt8}
    (hs : s.length < 2^32) :
    Alike (update c s (UInt32.ofNat s.length),position (update c s (UInt32.ofNat s.length)))
      (update d s (UInt32.ofNat s.length),position (update d s (UInt32.ofNat s.length))) := by
  have hu := h.foldl s
  rw [update_position hs,update_position hs,update_eq hs,update_eq hs]
  exact ⟨by rw [show c.i = d.i from h.i],hu.buf,hu.mdi,hu.bytes⟩

theorem word_alike {v w : Vector UInt8 64} (h : ∀ j : Fin 64, j.val < 56 → v.get j = w.get j) {k : Fin 16}
    (hk : k.val < 14) : word v k = word w k := by
  have h : ∀ j : Fin 64, j.val < 56 → v[j] = w[j] := h
  have h0 := h ⟨4*k.val,by omega⟩ (by dsimp only; omega)
  have h1 := h ⟨4*k.val+1,by omega⟩ (by dsimp only; omega)
  have h2 := h ⟨4*k.val+2,by omega⟩ (by dsimp only; omega)
  have h3 := h ⟨4*k.val+3,by omega⟩ (by dsimp only; omega)
  simp only [Fin.getElem_fin] at h0 h1 h2 h3
  simp only [word,h0,h1,h2,h3]

theorem lastBlock_alike {v w : Vector UInt8 64} (h : ∀ j : Fin 64, j.val < 56 → v.get j = w.get j)
    (i : UInt32 × UInt32) : lastBlock i v = lastBlock i w := by
  refine congrArg Vector.ofFn (funext fun k => ?_)
  split_ifs with h14 h15
  · rfl
  · rfl
  · exact word_alike h (by omega)

/-- After the padding there are 56 bytes in the block. -/
theorem pad_position (mdi : Fin 64) :
    (mdi.val+(PADDING.take (UInt32.ofNat (padLen mdi)).toNat).length)%64 = 56 := by
  have hpad : padLen mdi ≤ 64 := by
    unfold padLen
    split_ifs <;> omega
  have hlen : (PADDING.take (UInt32.ofNat (padLen mdi)).toNat).length = padLen mdi := by
    rw [UInt32.toNat_ofNat_of_lt' (hpad.trans_lt (by decide)),List.length_take]
    simp only [PADDING,List.length_cons,List.length_replicate]
    omega
  rw [hlen]
  unfold padLen
  split_ifs <;> omega

/-- `MD5Final` looks at the bytes of the message only. -/
theorem final_alike {c d : Md5Ctx} (h : Alike (c,position c) (d,position d)) :
    (final c).digest = (final d).digest := by
  have hi : c.i = d.i := h.i
  have hmdi : position c = position d := h.mdi
  have hu := (h.withCount (UInt32.ofNat (padLen (position c)))).foldl
    (PADDING.take (UInt32.ofNat (padLen (position c))).toNat)
  have hpos := foldl_absorb_snd (PADDING.take (UInt32.ofNat (padLen (position c))).toNat)
    ({ c with i := count c.i (UInt32.ofNat (padLen (position c))) },position c)
  rw [pad_position] at hpos
  have hlast := lastBlock_alike (fun j hj => hu.bytes j (Fin.lt_def.mpr (by omega))) c.i
  have hbuf := hu.buf
  simp only [final,update]
  rw [hlast,hbuf,← hmdi,← hi]

end Md5

open Md5 in
/-- `make.file.md5` of a file is `make.md5` of its contents, whatever the stack held before. -/
theorem makeFileMd5_eq (s : List UInt8) (h : s.length < 2^32) :
    (∀ c, updateFile c s = update c s (UInt32.ofNat s.length)) ∧
      ∀ c d, makeFileMd5 c s = makeMd5 d s := by
  refine ⟨updateFile_eq h,fun c d => ?_⟩
  unfold makeFileMd5 makeMd5
  rw [updateFile_eq h,final_alike ((alike_init c d).update h)]

open Md5 in
/-- A file that takes two reads. -/
theorem makeFileMd5_reads :
    (∀ c, updateFile c (List.replicate 5000 97) =
      update c (List.replicate 5000 97) (UInt32.ofNat (List.replicate 5000 (97 : UInt8)).length)) ∧
      ∀ c d, makeFileMd5 c (List.replicate 5000 97) = makeMd5 d (List.replicate 5000 97) := by
  have hlength : (List.replicate 5000 (97 : UInt8)).length < 2^32 := by
    rw [List.length_replicate]
    norm_num
  exact makeFileMd5_eq (List.replicate 5000 97) hlength

end Presto

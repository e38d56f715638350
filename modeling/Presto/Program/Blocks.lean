import Mathlib.Tactic

/-! A stream that is folded block by block. The symbols come one at a time and are kept until a
block is full; the result is that of the blocks of the whole input. -/
namespace Program
variable {α σ : Type}

/-- The full blocks of `n` symbols. -/
def blocks (n : ℕ) (xs : List α) : List (List α) :=
  (List.range (xs.length/n)).map fun i => (xs.drop (n*i)).take n

/-- One symbol is added to the part of a block that has come so far. -/
def drip (n : ℕ) (f : σ → List α → σ) : σ × List α → α → σ × List α
  | (s,part),a => if part.length+1 = n then (f s (part++[a]),[]) else (s,part++[a])

theorem blocks_short {n : ℕ} {xs : List α} (h : xs.length < n) : blocks n xs = [] := by
  unfold blocks
  rw [Nat.div_eq_of_lt h]
  rfl

theorem blocks_cons {n : ℕ} (hn : 0 < n) {b : List α} (hb : b.length = n) (xs : List α) :
    blocks n (b++xs) = b::blocks n xs := by
  have hdiv : (b++xs).length/n = xs.length/n+1 := by
    rw [List.length_append,hb,Nat.add_comm,Nat.add_div_right _ hn]
  unfold blocks
  rw [hdiv,List.range_succ_eq_map,List.map_cons,List.map_map]
  congr 1
  · rw [Nat.mul_zero,List.drop_zero,← hb,List.take_left]
  · refine List.map_congr_left fun i _ => ?_
    have hdrop : n*(i+1) = n+n*i := by ring
    simp only [Function.comp_apply,Nat.succ_eq_add_one]
    rw [hdrop,← List.drop_drop,List.drop_left' hb]

/-- Part of a block does no more than wait. -/
theorem foldl_drip_part {n : ℕ} (f : σ → List α → σ) (s : σ) (part xs : List α)
    (h : part.length+xs.length < n) : xs.foldl (drip n f) (s,part) = (s,part++xs) := by
  induction xs generalizing part with
  | nil => rw [List.append_nil]; rfl
  | cons a xs ih =>
    rw [List.length_cons] at h
    have hne : part.length+1 ≠ n := by omega
    rw [List.foldl_cons,drip,if_neg hne,ih _ (by rw [List.length_append,List.length_singleton]; omega),
      List.append_assoc]
    rfl

/-- What fills the block lets it go into the state. -/
theorem foldl_drip_fill {n : ℕ} (f : σ → List α → σ) (s : σ) {part xs : List α} (hne : xs ≠ [])
    (h : part.length+xs.length = n) : xs.foldl (drip n f) (s,part) = (f s (part++xs),[]) := by
  have hsplit : xs.dropLast++[xs.getLast hne] = xs := List.dropLast_append_getLast hne
  have hpos : 0 < xs.length := List.length_pos_iff.mpr hne
  have hlen : xs.dropLast.length = xs.length-1 := List.length_dropLast
  have hpart := foldl_drip_part f s part xs.dropLast (n := n) (by omega)
  have hfull : (part++xs.dropLast).length+1 = n := by
    rw [List.length_append]
    omega
  calc xs.foldl (drip n f) (s,part)
    _ = (xs.dropLast++[xs.getLast hne]).foldl (drip n f) (s,part) := by rw [hsplit]
    _ = drip n f (xs.dropLast.foldl (drip n f) (s,part)) (xs.getLast hne) := by
      rw [List.foldl_append]
      rfl
    _ = (f s (part++xs),[]) := by rw [hpart,drip,if_pos hfull,List.append_assoc,hsplit]

/-- The whole blocks are folded into the state, and the rest waits. -/
theorem foldl_drip {n : ℕ} (hn : 0 < n) (f : σ → List α → σ) (s : σ) (xs : List α) :
    xs.foldl (drip n f) (s,[]) = ((blocks n xs).foldl f s,xs.drop (n*(xs.length/n))) := by
  induction hm : xs.length using Nat.strong_induction_on generalizing s xs with
  | _ m ih =>
    by_cases h : xs.length < n
    · rw [foldl_drip_part _ _ _ _ (by simpa using h),blocks_short h,Nat.div_eq_of_lt (hm ▸ h)]
      rfl
    · have hsplit : xs.take n++xs.drop n = xs := List.take_append_drop n xs
      have htake : (xs.take n).length = n := by rw [List.length_take]; omega
      have hdrop : (xs.drop n).length = m-n := by rw [List.length_drop,hm]
      have hne : xs.take n ≠ [] := fun h0 => by
        rw [h0] at htake
        exact hn.ne htake
      have hfill : (xs.take n).foldl (drip n f) (s,[]) = (f s (xs.take n),[]) := by
        rw [foldl_drip_fill f s hne (by rw [List.length_nil,htake,Nat.zero_add])]
        rfl
      have hrest := ih (m-n) (by omega) (f s (xs.take n)) (xs.drop n) hdrop
      have hdiv : m/n = (m-n)/n+1 := by
        rw [Nat.div_eq_sub_div hn (by omega)]
      have hend : n*((m-n)/n+1) = n+n*((m-n)/n) := by ring
      rw [← hsplit,List.foldl_append,hfill,hrest,blocks_cons hn htake,hsplit,hdiv,hend,
        List.drop_drop]
      rfl

/-- If nothing is left over, the state is that of the blocks. -/
theorem foldl_drip_of_dvd {n : ℕ} (hn : 0 < n) (f : σ → List α → σ) (s : σ) {xs : List α} (h : n ∣ xs.length) :
    xs.foldl (drip n f) (s,[]) = ((blocks n xs).foldl f s,[]) := by
  rw [foldl_drip hn,Nat.mul_div_cancel' h,List.drop_length]

end Program

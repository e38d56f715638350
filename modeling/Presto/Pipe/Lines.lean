import Presto.Pipe

/-! The lines that `flushio` prints, and how they depend on the way the output is cut into
reads. -/
namespace Presto
open Program

/-- The stream without the LF of each CR LF. -/
def unifyEnds : Bytes → Bytes
  | [] => []
  | [b] => [b]
  | b::c::rest => if b = CR ∧ c = LF then CR::unifyEnds rest else b::unifyEnds (c::rest)

/-- The lines of a stream: it is split at CR and at CR LF, and what is left at the end is a
line unless it is empty. -/
def streamLines (s : Bytes) : List Bytes :=
  let parts := (unifyEnds s).splitOn CR
  if parts.getLast? = some [] then parts.dropLast else parts

example : streamLines [65,13,10,13,66,10,67] = [[65],[],[66,10,67]] := by decide

/-- The lines of one read after another, and the rest of the last one. -/
def cutAll (line : Bytes) : List Bytes → List Bytes × Bytes
  | [] => ([],line)
  | read::reads =>
    let r := cutLines line read
    let rs := cutAll r.2 reads
    (r.1++rs.1,rs.2)

/-- No read ends between the CR and the LF of a line. -/
def KeepsEnds : List Bytes → Prop
  | a::b::reads => ¬(a.getLast? = some CR ∧ b.head? = some LF) ∧ KeepsEnds (b::reads)
  | _ => True

instance keepsEndsDecidable : (reads : List Bytes) → Decidable (KeepsEnds reads)
  | [] => isTrue trivial
  | [_] => isTrue trivial
  | _::b::reads => @instDecidableAnd _ _ _ (keepsEndsDecidable (b::reads))

/-- What follows a CR, without the LF that belongs to it. -/
def skipLF (s : Bytes) : Bytes := if s.head? = some LF then s.tail else s

theorem skipLF_length (s : Bytes) : (skipLF s).length ≤ s.length := by
  unfold skipLF
  split_ifs
  · exact List.tail_sublist s |>.length_le
  · exact le_rfl

/-- Induction along a read that goes on behind a CR LF. -/
theorem skipLF_induction {P : Bytes → Prop} (nil : P []) (cons : ∀ b rest, P (skipLF rest) → P rest → P (b::rest))
    (s : Bytes) : P s := by
  induction hn : s.length using Nat.strong_induction_on generalizing s with
  | _ n ih =>
    cases s with
    | nil => exact nil
    | cons b rest =>
      have hlen : rest.length < n := by rw [← hn]; exact Nat.lt_succ_self _
      exact cons b rest (ih _ ((skipLF_length rest).trans_lt hlen) _ rfl) (ih _ hlen _ rfl)

theorem getLast?_of_skipLF {s : Bytes} {b : UInt8} (h : (skipLF s).getLast? = some b) :
    s.getLast? = some b := by
  unfold skipLF at h
  split_ifs at h
  · cases s with
    | nil => exact h
    | cons c s =>
      rw [List.getLast?_cons,show s.getLast? = some b from h]
      rfl
  · exact h

theorem cutLines_cons {b : UInt8} (hb : b ≠ 0) (line rest : Bytes) :
    cutLines line (b::rest) =
      if b = CR then (line::(cutLines [] (skipLF rest)).1,(cutLines [] (skipLF rest)).2)
      else cutLines (line++[b]) rest := by
  cases rest with
  | nil =>
    simp only [cutLines,hb,if_false,skipLF]
    rfl
  | cons c rest =>
    by_cases hc : c = LF
    · subst hc
      simp [cutLines,hb,skipLF]
    · simp [cutLines,hb,skipLF,hc]

theorem unifyEnds_cons (b : UInt8) (rest : Bytes) :
    unifyEnds (b::rest) = b::unifyEnds (if b = CR then skipLF rest else rest) := by
  cases rest with
  | nil => simp [unifyEnds,skipLF]
  | cons c rest =>
    by_cases hb : b = CR
    · subst hb
      by_cases hc : c = LF
      · subst hc
        simp [unifyEnds,skipLF]
      · simp [unifyEnds,skipLF,hc]
    · simp [unifyEnds,hb]

theorem skipLF_subset (s : Bytes) : skipLF s ⊆ s := by
  unfold skipLF
  split_ifs
  · exact List.tail_subset s
  · exact List.Subset.refl s

/-- What `cutLines` has printed and kept, read as one list, is the stream split at its ends. -/
theorem cutLines_splitOn (s : Bytes) (h : 0 ∉ s) (line : Bytes) (hline : CR ∉ line) :
    (cutLines line s).1++[(cutLines line s).2] = (line++unifyEnds s).splitOn CR := by
  induction s using skipLF_induction generalizing line with
  | nil =>
    rw [unifyEnds,List.append_nil,List.splitOn_eq_singleton hline]
    rfl
  | cons b rest hskip ih =>
    obtain ⟨hb,hrest⟩ := not_or.mp (mt List.mem_cons.mpr h)
    rw [cutLines_cons (Ne.symm hb),unifyEnds_cons]
    by_cases hcr : b = CR
    · subst hcr
      simp only [if_true]
      rw [List.splitOn_append_cons_self_of_not_mem hline]
      have hs := hskip (fun h => hrest (skipLF_subset rest h)) [] (by simp)
      rw [List.nil_append] at hs
      rw [← hs,List.cons_append]
    · simp only [if_neg hcr]
      have hs := ih hrest (line++[b]) (by simp [hline,Ne.symm hcr])
      rw [hs,List.append_assoc]
      rfl

/-- The lines when nothing more comes: `flushio` prints what is left over. -/
def flushed (r : List Bytes × Bytes) : List Bytes := if r.2 = [] then r.1 else r.1++[r.2]

theorem streamLines_eq {s : Bytes} (h : 0 ∉ s) : streamLines s = flushed (cutLines [] s) := by
  have hs := cutLines_splitOn s h [] (by simp)
  rw [List.nil_append] at hs
  unfold streamLines flushed
  simp only [← hs,List.getLast?_concat,List.dropLast_concat,Option.some.injEq]

/-- Two reads are as good as one, unless the cut is between CR and LF. -/
theorem cutLines_append (s t : Bytes) (h : 0 ∉ s) (hcut : ¬(s.getLast? = some CR ∧ t.head? = some LF))
    (line : Bytes) : cutLines line (s++t) =
      ((cutLines line s).1++(cutLines (cutLines line s).2 t).1,(cutLines (cutLines line s).2 t).2) := by
  induction s using skipLF_induction generalizing line with
  | nil => simp [cutLines]
  | cons b rest hskip ih =>
    obtain ⟨hb,hrest⟩ := not_or.mp (mt List.mem_cons.mpr h)
    rw [List.cons_append,cutLines_cons (Ne.symm hb),cutLines_cons (Ne.symm hb)]
    by_cases hcr : b = CR
    · simp only [if_pos hcr]
      have htail : skipLF (rest++t) = skipLF rest++t := by
        cases rest with
        | nil =>
          have ht : t.head? ≠ some LF := fun ht => hcut ⟨by simp [hcr],ht⟩
          simp [skipLF,ht]
        | cons c rest => by_cases hc : c = LF <;> simp [skipLF,hc]
      have hlast : ¬((skipLF rest).getLast? = some CR ∧ t.head? = some LF) := by
        rintro ⟨hl,ht⟩
        refine hcut ⟨?_,ht⟩
        rw [List.getLast?_cons,getLast?_of_skipLF hl]
        rfl
      rw [htail,hskip (fun h => hrest (skipLF_subset rest h)) hlast []]
      rfl
    · simp only [if_neg hcr]
      have hlast : ¬(rest.getLast? = some CR ∧ t.head? = some LF) := by
        rintro ⟨hl,ht⟩
        refine hcut ⟨?_,ht⟩
        rw [List.getLast?_cons,hl]
        rfl
      exact ih hrest hlast (line++[b])

/-- No LF is lost but those that follow a CR in the same read. -/
theorem count_cutLines (s : Bytes) (h : 0 ∉ s) (line : Bytes) :
    (cutLines line s).1.flatten.count LF+(cutLines line s).2.count LF =
      line.count LF+(unifyEnds s).count LF := by
  induction s using skipLF_induction generalizing line with
  | nil => simp [cutLines,unifyEnds]
  | cons b rest hskip ih =>
    obtain ⟨hb,hrest⟩ := not_or.mp (mt List.mem_cons.mpr h)
    rw [cutLines_cons (Ne.symm hb),unifyEnds_cons]
    by_cases hcr : b = CR
    · subst hcr
      have hs := hskip (fun h => hrest (skipLF_subset rest h)) []
      simp only [if_true,List.flatten_cons,List.count_append,List.count_cons] at hs ⊢
      simp only [List.count_nil,show (CR == LF) = false from rfl,Bool.false_eq_true,if_false] at hs ⊢
      omega
    · have hs := ih hrest (line++[b])
      simp only [if_neg hcr,List.count_append,List.count_cons,List.count_nil] at hs ⊢
      omega

theorem getLast?_skipLF {s : Bytes} (hs : s ≠ []) :
    (skipLF s).getLast? = some CR ↔ s.getLast? = some CR := by
  refine ⟨getLast?_of_skipLF,fun h => ?_⟩
  unfold skipLF
  split_ifs with hl
  · cases s with
    | nil => exact absurd rfl hs
    | cons c s =>
      cases s with
      | nil =>
        simp only [List.head?_cons,Option.some.injEq] at hl
        simp [hl,CR,LF] at h
      | cons d s => simpa using h
  · exact h

/-- Cutting a stream between CR and LF makes one more LF. -/
theorem count_unifyEnds_append (s t : Bytes) :
    (unifyEnds (s++t)).count LF+(if s.getLast? = some CR ∧ t.head? = some LF then 1 else 0) =
      (unifyEnds s).count LF+(unifyEnds t).count LF := by
  induction s using skipLF_induction with
  | nil => simp [unifyEnds]
  | cons b rest hskip ih =>
    rw [List.cons_append,unifyEnds_cons,unifyEnds_cons]
    cases rest with
    | nil =>
      by_cases hcr : b = CR
      · subst hcr
        cases t with
        | nil => simp [skipLF,unifyEnds]
        | cons c t =>
          by_cases hc : c = LF
          · subst hc
            simp [skipLF,unifyEnds,unifyEnds_cons LF t,show LF ≠ CR by decide,show CR ≠ LF by decide]
          · simp [skipLF,unifyEnds,hc,show CR ≠ LF by decide]
      · simp [hcr,unifyEnds,List.count_cons]
        omega
    | cons c rest =>
      have hlast : ((b::c::rest).getLast? = some CR) ↔ ((c::rest).getLast? = some CR) := by
        rw [List.getLast?_cons_cons]
      simp only [hlast]
      by_cases hcr : b = CR
      · have hs := hskip
        have htail : skipLF (c::rest++t) = skipLF (c::rest)++t := by
          by_cases hc : c = LF <;> simp [skipLF,hc]
        simp only [getLast?_skipLF (List.cons_ne_nil c rest)] at hs
        simp only [if_pos hcr,htail,List.count_cons] at hs ⊢
        omega
      · have hs := ih
        simp only [if_neg hcr,List.count_cons] at hs ⊢
        omega

/-- The LF of all reads, each taken by itself. -/
def countLF (reads : List Bytes) : ℕ := (reads.map fun read => (unifyEnds read).count LF).sum

theorem count_cutAll (reads : List Bytes) (h : ∀ read ∈ reads, 0 ∉ read) (line : Bytes) :
    (cutAll line reads).1.flatten.count LF+(cutAll line reads).2.count LF =
      line.count LF+countLF reads := by
  induction reads generalizing line with
  | nil => simp [cutAll,countLF]
  | cons read reads ih =>
    have hread := count_cutLines read (h read List.mem_cons_self) line
    have hrest := ih (fun r hr => h r (List.mem_cons_of_mem _ hr)) (cutLines line read).2
    simp only [cutAll,countLF,List.flatten_append,List.count_append,List.map_cons,List.sum_cons] at *
    omega

/-- The reads have an LF too many exactly if one of them ends within a CR LF. -/
theorem countLF_eq_iff (reads : List Bytes) (hne : ∀ read ∈ reads, read ≠ []) :
    (unifyEnds reads.flatten).count LF ≤ countLF reads ∧
      (countLF reads = (unifyEnds reads.flatten).count LF ↔ KeepsEnds reads) := by
  induction reads with
  | nil => simp [countLF,unifyEnds,KeepsEnds]
  | cons a reads ih =>
    obtain ⟨hle,hiff⟩ := ih fun r hr => hne r (List.mem_cons_of_mem _ hr)
    have happend := count_unifyEnds_append a reads.flatten
    have hsum : countLF (a::reads) = (unifyEnds a).count LF+countLF reads := by simp [countLF]
    rw [List.flatten_cons,hsum]
    cases reads with
    | nil =>
      refine ⟨by simp [countLF],?_⟩
      simp [countLF,KeepsEnds]
    | cons b reads =>
      have hb := hne b (by simp)
      have hhead : (b::reads).flatten.head? = b.head? := by
        rw [List.flatten_cons,List.head?_append_of_ne_nil _ hb]
      rw [hhead] at happend
      rw [KeepsEnds,← hiff]
      split_ifs at happend with hcut
      · exact ⟨by omega,by constructor <;> intro h <;> [omega; exact absurd hcut h.1]⟩
      · refine ⟨by omega,?_⟩
        constructor
        · exact fun h => ⟨hcut,by omega⟩
        · rintro ⟨_,h⟩
          omega

theorem cutAll_flatten {reads : List Bytes} (h : ∀ read ∈ reads, 0 ∉ read)
    (hne : ∀ read ∈ reads, read ≠ []) (hk : KeepsEnds reads) (line : Bytes) :
    cutAll line reads = cutLines line reads.flatten := by
  induction reads generalizing line with
  | nil => rfl
  | cons a reads ih =>
    have hcut : ¬(a.getLast? = some CR ∧ reads.flatten.head? = some LF) := by
      cases reads with
      | nil => simp
      | cons b reads =>
        rw [List.flatten_cons,List.head?_append_of_ne_nil _ (hne b (by simp))]
        exact hk.1
    have htail : KeepsEnds reads := by
      cases reads with
      | nil => trivial
      | cons b reads => exact hk.2
    rw [List.flatten_cons,cutLines_append a _ (h a List.mem_cons_self) hcut]
    simp only [cutAll]
    rw [ih (fun r hr => h r (List.mem_cons_of_mem _ hr)) (fun r hr => hne r (List.mem_cons_of_mem _ hr)) htail]

theorem count_flushed (r : List Bytes × Bytes) :
    (flushed r).flatten.count LF = r.1.flatten.count LF+r.2.count LF := by
  unfold flushed
  split_ifs with h
  · simp [h]
  · simp

/-- The reads give the lines of the stream exactly if none of them ends within a CR LF. -/
theorem flushed_cutAll_iff {reads : List Bytes} (h : ∀ read ∈ reads, 0 ∉ read)
    (hne : ∀ read ∈ reads, read ≠ []) :
    flushed (cutAll [] reads) = streamLines reads.flatten ↔ KeepsEnds reads := by
  have hflat : 0 ∉ reads.flatten := by
    intro hmem
    obtain ⟨read,hr,hz⟩ := List.mem_flatten.mp hmem
    exact h read hr hz
  rw [streamLines_eq hflat]
  constructor
  · intro heq
    rw [← (countLF_eq_iff reads hne).2]
    have hcount := congrArg (fun l => l.flatten.count LF) heq
    simp only [count_flushed] at hcount
    rw [count_cutAll reads h,count_cutLines _ hflat] at hcount
    simpa using hcount
  · intro hk
    rw [cutAll_flatten h hne hk]

end Presto

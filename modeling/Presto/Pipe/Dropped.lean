import Presto.Pipe.Output
import Presto.Pipe.Buffer

/-! What `flushio` drops of the output of a child: all that follows a NUL in a read, and nothing
else as long as the lines fit into `leftovers`. -/
namespace Presto
open Program

/-- The bytes that are no part of the end of a line. -/
def textBytes (s : Bytes) : Bytes := s.filter fun b => b ≠ CR ∧ b ≠ LF

/-- When the child is done, its text has been printed in full and in order. -/
def PrintsAll (C : Child) : Prop :=
  ∃ code s, poll C (C.reads.length+2) (spawned C) = (.ret code,s) ∧
    textBytes s.printed.flatten = textBytes (dataReads C.reads).flatten

theorem flatten_flushed (r : List Bytes × Bytes) : (flushed r).flatten = r.1.flatten++r.2 := by
  unfold flushed
  split_ifs with h <;> simp [h]

theorem textBytes_append (s t : Bytes) : textBytes (s++t) = textBytes s++textBytes t :=
  List.filter_append s t

theorem textBytes_skipLF (s : Bytes) : textBytes (skipLF s) = textBytes s := by
  cases s with
  | nil => rfl
  | cons b s => by_cases hlf : b = LF <;> simp [textBytes,skipLF,hlf]

/-- Cutting a read without NUL into lines drops no text. -/
theorem textBytes_cutLines (s : Bytes) (h : 0 ∉ s) (line : Bytes) :
    textBytes ((cutLines line s).1.flatten++(cutLines line s).2) = textBytes (line++s) := by
  induction s using skipLF_induction generalizing line with
  | nil => simp [cutLines]
  | cons b rest hskip ih =>
    obtain ⟨hb,hrest⟩ := not_or.mp (mt List.mem_cons.mpr h)
    rw [cutLines_cons (Ne.symm hb)]
    by_cases hcr : b = CR
    · have hs := hskip (fun h => hrest (skipLF_subset rest h)) []
      simp only [if_pos hcr,List.flatten_cons,List.append_assoc,textBytes_append,
        List.nil_append,textBytes_skipLF] at hs ⊢
      rw [hs]
      simp [textBytes,hcr]
    · rw [if_neg hcr,ih hrest (line++[b])]
      simp

theorem textBytes_cutAll (reads : List Bytes) (h : 0 ∉ reads.flatten) (line : Bytes) :
    textBytes (flushed (cutAll line reads)).flatten = textBytes (line++reads.flatten) := by
  induction reads generalizing line with
  | nil => simp [cutAll,flatten_flushed]
  | cons read reads ih =>
    rw [List.flatten_cons,List.mem_append,not_or] at h
    have hread := textBytes_cutLines read h.1 line
    have hrest := ih h.2 (cutLines line read).2
    rw [flatten_flushed] at hrest
    simp only [cutAll,flatten_flushed,List.flatten_append,List.flatten_cons,List.append_assoc,
      textBytes_append] at hread hrest ⊢
    rw [hrest,← List.append_assoc,hread,List.append_assoc]

/-- No NUL is printed. -/
theorem zero_notMem_cutLines (s : Bytes) (line : Bytes) (hl : 0 ∉ line) :
    0 ∉ (cutLines line s).1.flatten++(cutLines line s).2 := by
  induction s using skipLF_induction generalizing line with
  | nil => simpa [cutLines] using hl
  | cons b rest hskip ih =>
    by_cases hb : b = 0
    · rw [hb,cutLines_nul]
      simpa using hl
    · rw [cutLines_cons hb]
      split_ifs with hcr
      · have hs := hskip [] (by simp)
        simp only [List.flatten_cons,List.append_assoc,List.mem_append,hl,false_or] at hs ⊢
        exact hs
      · exact ih (line++[b]) (by simp [hl,Ne.symm hb])

theorem zero_notMem_cutAll (reads : List Bytes) (line : Bytes) (hl : 0 ∉ line) :
    0 ∉ (flushed (cutAll line reads)).flatten := by
  induction reads generalizing line with
  | nil => simpa [cutAll,flatten_flushed] using hl
  | cons read reads ih =>
    have hread := zero_notMem_cutLines read line hl
    rw [List.mem_append,not_or] at hread
    have hrest := ih (cutLines line read).2 hread.2
    simp only [cutAll,flatten_flushed,List.flatten_append,List.append_assoc] at hrest ⊢
    rw [List.mem_append]
    exact not_or.mpr ⟨hread.1,hrest⟩

theorem fits_iff (reads : List Bytes) {line : Bytes} (hl : line.length ≤ 1023) :
    Fits line reads ↔ ∀ past ∈ reads.inits, (past.foldl openLine line).length ≤ 1023 := by
  induction reads generalizing line with
  | nil => simpa [Fits] using hl
  | cons read reads ih =>
    simp only [Fits,List.inits_cons,List.forall_mem_cons,List.forall_mem_map,List.foldl_cons,
      List.foldl_nil]
    rw [cutLines_openLine,Nat.lt_succ_iff]
    constructor
    · rintro ⟨hfirst,hrest⟩
      exact ⟨hl,(ih hfirst).mp hrest⟩
    · rintro ⟨_,hrest⟩
      have hfirst := hrest [] (by simp)
      exact ⟨hfirst,(ih hfirst).mpr hrest⟩

/-- All text of a child is printed exactly if it writes no NUL and each line that is open after
a read leaves room in `leftovers`. -/
theorem printsAll_iff (C : Child) (hp : ∀ line, C.print line = none)
    (hh : ∀ r ∈ C.reads, ∀ code, r ≠ .failed code) :
    PrintsAll C ↔ 0 ∉ (dataReads C.reads).flatten ∧ Roomy (dataReads C.reads) := by
  have hpoll := poll_lines hp (C.reads.length+2) (owes_spawned hh) le_rfl
  have hroomy : Roomy (dataReads C.reads) ↔ Fits [] (dataReads C.reads) :=
    (fits_iff _ (by simp)).symm
  rw [hroomy]
  constructor
  · rintro ⟨code,s,hrun,hprinted⟩
    rw [wp,hrun] at hpoll
    rcases hpoll with ⟨hf,_,hl⟩ | ⟨_,hover⟩
    · refine ⟨fun hnul => ?_,hf⟩
      have hmem : (0 : UInt8) ∈ textBytes s.printed.flatten := by
        rw [hprinted]
        exact List.mem_filter.mpr ⟨hnul,by decide⟩
      have hno := zero_notMem_cutAll (dataReads C.reads) [] (by simp)
      rw [← hl] at hno
      exact hno (List.mem_filter.mp hmem).1
    · cases hover
  · rintro ⟨hnul,hf⟩
    rcases hpoll with ⟨_,⟨code,hcode⟩,hl⟩ | ⟨hno,_⟩
    · refine ⟨code,_,Prod.ext hcode rfl,?_⟩
      rw [hl,textBytes_cutAll _ hnul,List.nil_append]
    · exact absurd hf hno

theorem printsAll_abc : PrintsAll (Child.writes [[97,13],[10,98],[99]]) :=
  (printsAll_iff (Child.writes [[97,13],[10,98],[99]]) (fun _ => rfl)
    (by simp [Child.writes])).mpr ⟨by decide,by decide⟩

/-- A NUL in the middle of a line. -/
theorem nul_drops : ¬PrintsAll (Child.writes [[97,0,98,13]]) := by
  rintro ⟨code,s,hrun,hprinted⟩
  have hlines : (poll (Child.writes [[97,0,98,13]]) 3
      (spawned (Child.writes [[97,0,98,13]]))).2.printed = [[97]] := by decide
  rw [show (3 : ℕ) = (Child.writes [[97,0,98,13]]).reads.length+2 from rfl,hrun] at hlines
  rw [hlines] at hprinted
  exact absurd hprinted (by decide)

end Presto

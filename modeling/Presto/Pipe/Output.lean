import Presto.Pipe.Lines

/-! What the polling loop has printed when the child is done. -/
namespace Presto
open Program

/-- The data that the reads bring. -/
def ReadResult.bytes? : ReadResult → Option Bytes
  | .data bytes => some bytes
  | _ => none

def dataReads (reads : List ReadResult) : List Bytes := reads.filterMap ReadResult.bytes?

/-- `leftovers` never grows beyond its buffer. -/
def Fits (line : Bytes) : List Bytes → Prop
  | [] => True
  | read::reads => (cutLines line read).2.length < 1024 ∧ Fits (cutLines line read).2 reads

/-- The process is not done, and what it still prints makes the lines up to `L`. -/
structure Owes (F : Prop) (L : List Bytes) (s : Pipe) : Prop where
  open' : s.proc.handle ≠ .invalid
  healthy : ∀ r ∈ s.reads, ∀ code, r ≠ .failed code
  fits : Fits s.proc.leftovers (dataReads s.reads) ↔ F
  lines : s.printed++flushed (cutAll s.proc.leftovers (dataReads s.reads)) = L

/-- A call of `flushio` with `n` reads to come: the process is done and has printed `L`, or
`leftovers` was too small, or fewer reads are to come. -/
inductive Progress (F : Prop) (L : List Bytes) (n : ℕ) : Outcome Fault Unit → Pipe → Prop
  | done (s : Pipe) (hf : F) (hh : s.proc.handle = .invalid) (hl : s.printed = L) :
      Progress F L n (.ret ()) s
  | overflow (s : Pipe) (hf : ¬F) : Progress F L n (.raise .overflow) s
  | more (s : Pipe) (h : Owes F L s) (hn : s.reads.length < n) : Progress F L n (.ret ()) s

section
variable {C : Child} {F : Prop} {L : List Bytes}

theorem Progress.mono {n m : ℕ} {o : Outcome Fault Unit} {s : Pipe} (h : Progress F L n o s)
    (hnm : n ≤ m) : Progress F L m o s := by
  rcases h with ⟨_,hf,hh,hl⟩ | ⟨_,hf⟩ | ⟨_,h,hn⟩
  · exact .done s hf hh hl
  · exact .overflow s hf
  · exact .more s h (hn.trans_le hnm)

theorem run_printLines (hp : ∀ line, C.print line = none) (lines : List Bytes) (s : Pipe) :
    printLines C lines s = (.ret (),{ s with printed := s.printed++lines }) := by
  induction lines generalizing s with
  | nil => simp [printLines]
  | cons line lines ih =>
    have hline : printLine C line s = (.ret (),{ s with printed := s.printed++[line] }) := by
      unfold printLine
      rw [hp line]
      rfl
    unfold printLines
    rw [run_bind_of_ret hline,ih]
    simp

theorem run_flushioHelper (hp : ∀ line, C.print line = none) (bytes : Bytes) (s : Pipe) :
    flushioHelper C bytes s =
      if (cutLines s.proc.leftovers bytes).2.length < 1024 then
        (.ret (),{ s with
          proc := { s.proc with leftovers := (cutLines s.proc.leftovers bytes).2 }
          printed := s.printed++(cutLines s.proc.leftovers bytes).1 })
      else (.raise .overflow,{ s with printed := s.printed++(cutLines s.proc.leftovers bytes).1 }) := by
  unfold flushioHelper
  rw [run_bind_gets,id,run_bind_of_ret (run_printLines hp _ s),run_ite]
  split_ifs <;> rfl

theorem brokenPipe_progress (hp : ∀ line, C.print line = none) {s : Pipe} (h : Owes F L s)
    (hr : s.reads = []) (n : ℕ) : wp (brokenPipe C) (Progress F L n) s := by
  have hf : F := h.fits.mp (by simp [hr,dataReads,Fits])
  have hl := h.lines
  simp only [hr,dataReads,List.filterMap_nil,cutAll,flushed] at hl
  unfold brokenPipe
  rw [wp_bind_modify,wp_bind_gets,wp_ite]
  split_ifs with hleft
  · rw [if_neg (show s.proc.leftovers ≠ [] from hleft)] at hl
    rw [wp,run_flushioHelper hp]
    exact .done _ hf rfl hl
  · rw [if_pos (show s.proc.leftovers = [] from not_not.mp hleft),List.append_nil] at hl
    exact .done _ hf rfl hl

theorem readError_progress {s : Pipe} {reads : List ReadResult} (h : Owes F L s)
    (hr : s.reads = .incomplete::reads) :
    wp (readError .incomplete) (Progress F L (reads.length+1)) { s with reads := reads } := by
  refine .more _ ⟨h.open',?_,?_,?_⟩ (Nat.lt_succ_self _)
  · exact fun r hm => h.healthy r (by rw [hr]; exact List.mem_cons_of_mem _ hm)
  · rw [← h.fits,hr]
    rfl
  · rw [← h.lines,hr]
    rfl

/-- A read with data is passed on to the helper. -/
theorem data_progress (hp : ∀ line, C.print line = none) {s : Pipe} {bytes : Bytes}
    {reads : List ReadResult} (h : Owes F L s) (hr : s.reads = .data bytes::reads)
    {next : PipeIo Unit}
    (hnext : ∀ s', Owes F L s' → s'.reads = reads → wp next (Progress F L (reads.length+1)) s') :
    wp (do
      flushioHelper C bytes
      setWaiting false
      next) (Progress F L (reads.length+1)) { s with reads := reads } := by
  have hfits := h.fits
  have hlines := h.lines
  simp only [hr,dataReads,List.filterMap_cons,ReadResult.bytes?,cutAll,Fits] at hfits hlines
  by_cases hlen : (cutLines s.proc.leftovers bytes).2.length < 1024
  · apply wp_bind_ret (by rw [run_flushioHelper hp,if_pos hlen])
    refine hnext _ ⟨h.open',?_,?_,?_⟩ rfl
    · exact fun r hm => h.healthy r (by rw [hr]; exact List.mem_cons_of_mem _ hm)
    · rw [← hfits]
      exact ⟨fun hf => ⟨hlen,hf⟩,fun hf => hf.2⟩
    · rw [← hlines]
      simp only [flushed]
      split_ifs <;> simp_all [dataReads]
  · apply wp_bind_raise (by rw [run_flushioHelper hp,if_neg hlen])
    exact .overflow _ fun hf => hlen (hfits.mpr hf).1

theorem readLoop_progress (hp : ∀ line, C.print line = none) (reads : List ReadResult) {s : Pipe}
    (h : Owes F L s) (hr : s.reads = reads) :
    wp (readLoop C reads) (Progress F L reads.length) s := by
  induction reads generalizing s with
  | nil => exact brokenPipe_progress hp h hr _
  | cons r reads ih =>
    unfold readLoop
    rw [wp_bind_modify]
    cases r with
    | data bytes =>
      apply wp_mono (data_progress hp h hr fun s' hs hs' =>
        wp_mono (ih hs hs') fun o _ ho => ho.mono (Nat.le_succ _))
      exact fun o s' ho => ho
    | incomplete => exact readError_progress h hr
    | failed code => exact absurd rfl (h.healthy _ (by rw [hr]; exact List.mem_cons_self) code)

theorem pendingRead_progress (hp : ∀ line, C.print line = none) (reads : List ReadResult) {s : Pipe}
    (h : Owes F L s) (hr : s.reads = reads) :
    wp (pendingRead C reads) (Progress F L reads.length) s := by
  cases reads with
  | nil => exact brokenPipe_progress hp h hr _
  | cons r reads =>
    unfold pendingRead
    rw [wp_bind_modify]
    cases r with
    | data bytes =>
      exact data_progress hp h hr fun s' hs hs' =>
        wp_mono (readLoop_progress hp reads hs hs') fun o _ ho => ho.mono (Nat.le_succ _)
    | incomplete => exact readError_progress h hr
    | failed code => exact absurd rfl (h.healthy _ (by rw [hr]; exact List.mem_cons_self) code)

theorem flushio_progress (hp : ∀ line, C.print line = none) {s : Pipe} (h : Owes F L s) :
    wp (flushio C) (Progress F L s.reads.length) s := by
  unfold flushio
  rw [wp_bind_gets,wp_ite,wp_ite,if_neg (show (id s).proc.handle ≠ .invalid from h.open')]
  split_ifs
  · exact pendingRead_progress hp s.reads h rfl
  · exact readLoop_progress hp s.reads h rfl

/-- The polling loop ends with all lines printed, unless `leftovers` is too small. -/
theorem poll_lines (hp : ∀ line, C.print line = none) (k : ℕ) {s : Pipe} (h : Owes F L s)
    (hk : s.reads.length+2 ≤ k) :
    wp (poll C k) (fun o s' => F ∧ (∃ code, o = .ret code) ∧ s'.printed = L ∨
      ¬F ∧ o = .raise .overflow) s := by
  induction k generalizing s with
  | zero => omega
  | succ k ih =>
    unfold poll exitCode
    rw [wp_bind,wp_bind_gets]
    simp only [id,h.open',if_false,wp_pure,seqPost_ret]
    apply wp_bind_of (flushio_progress hp h)
    · intro _ s' hs'
      rcases hs' with ⟨_,hf,hh,hl⟩ | _ | ⟨_,hs,hn⟩
      · obtain ⟨m,rfl⟩ : ∃ m, k = m+1 := ⟨k-1,by omega⟩
        unfold poll exitCode
        rw [wp_bind,wp_bind_gets]
        simp only [id,hh,if_true,wp_pure,seqPost_ret]
        exact .inl ⟨hf,⟨_,rfl⟩,hl⟩
      · exact ih hs (by omega)
    · intro e s' hs'
      rcases hs' with _ | ⟨_,hf⟩
      exact .inr ⟨hf,rfl⟩
    · intro s' hs'
      cases hs'

/-- The beginning of the polling loop. -/
theorem owes_spawned (hh : ∀ r ∈ C.reads, ∀ code, r ≠ .failed code) :
    Owes (Fits [] (dataReads C.reads)) (flushed (cutAll [] (dataReads C.reads))) (spawned C) := by
  refine ⟨?_,hh,Iff.rfl,rfl⟩
  unfold spawned
  dsimp only
  split_ifs <;> simp

/-- The line that has begun is the beginning of one that is printed. -/
theorem cutLines_prefix (s : Bytes) (h : 0 ∉ s) (line : Bytes) (hl : line ≠ []) :
    ∃ x ∈ flushed (cutLines line s), line <+: x := by
  induction s generalizing line with
  | nil => exact ⟨line,by simp [cutLines,flushed,hl],List.prefix_refl _⟩
  | cons b rest ih =>
    obtain ⟨hb,hrest⟩ := not_or.mp (mt List.mem_cons.mpr h)
    rw [cutLines_cons (Ne.symm hb)]
    split_ifs with hcr
    · refine ⟨line,?_,List.prefix_refl _⟩
      unfold flushed
      split_ifs <;> simp
    · obtain ⟨x,hx,hp⟩ := ih hrest (line++[b]) (by simp)
      exact ⟨x,hx,(List.prefix_append line [b]).trans hp⟩

theorem flushed_append (xs : List Bytes) (r : List Bytes × Bytes) :
    flushed (xs++r.1,r.2) = xs++flushed r := by
  unfold flushed
  split_ifs <;> simp

theorem cutAll_prefix (reads : List Bytes) (h : ∀ read ∈ reads, 0 ∉ read) {line : Bytes}
    (hl : line ≠ []) : ∃ x ∈ flushed (cutAll line reads), line <+: x := by
  induction reads generalizing line with
  | nil => exact ⟨line,by simp [cutAll,flushed,hl],List.prefix_refl _⟩
  | cons read reads ih =>
    have hrest : flushed (cutAll line (read::reads)) =
        (cutLines line read).1++flushed (cutAll (cutLines line read).2 reads) :=
      flushed_append _ _
    rw [hrest]
    obtain ⟨x,hx,hp⟩ := cutLines_prefix read (h read List.mem_cons_self) line hl
    have hmem : x ∈ (cutLines line read).1 ∨ x = (cutLines line read).2 ∧ x ≠ [] := by
      unfold flushed at hx
      split_ifs at hx with he
      · exact .inl hx
      · rcases List.mem_append.mp hx with hx | hx
        · exact .inl hx
        · obtain rfl := List.mem_singleton.mp hx
          exact .inr ⟨rfl,he⟩
    rcases hmem with hx | ⟨rfl,hne⟩
    · exact ⟨x,List.mem_append_left _ hx,hp⟩
    · obtain ⟨y,hy,hxy⟩ := ih (fun r hr => h r (List.mem_cons_of_mem _ hr)) hne
      exact ⟨y,List.mem_append_right _ hy,hp.trans hxy⟩

/-- If the lines are short enough, `leftovers` is never too small. -/
theorem fits_of_short {reads : List Bytes} (h : ∀ read ∈ reads, 0 ∉ read) {line : Bytes}
    (hs : ∀ x ∈ flushed (cutAll line reads), x.length < 1024) : Fits line reads := by
  induction reads generalizing line with
  | nil => trivial
  | cons read reads ih =>
    have hrest : flushed (cutAll line (read::reads)) =
        (cutLines line read).1++flushed (cutAll (cutLines line read).2 reads) :=
      flushed_append _ _
    rw [hrest] at hs
    refine ⟨?_,ih (fun r hr => h r (List.mem_cons_of_mem _ hr)) fun x hx =>
      hs x (List.mem_append_right _ hx)⟩
    by_cases hl : (cutLines line read).2 = []
    · simp [hl]
    · obtain ⟨x,hx,hp⟩ := cutAll_prefix reads (fun r hr => h r (List.mem_cons_of_mem _ hr)) hl
      exact hp.length_le.trans_lt (hs x (List.mem_append_right _ hx))

/-- `flushio` has printed the lines of the stream when the child is done. -/
def PrintsLines (C : Child) : Prop :=
  ∃ code s, poll C (C.reads.length+2) (spawned C) = (.ret code,s) ∧
    s.printed = streamLines (dataReads C.reads).flatten

/-- A stream without NUL whose lines are short enough is printed line by line exactly if no
read ends between the CR and the LF of a line. -/
theorem printsLines_iff (C : Child) (hp : ∀ line, C.print line = none)
    (hh : ∀ r ∈ C.reads, ∀ code, r ≠ .failed code)
    (hr : ∀ read ∈ dataReads C.reads, read ≠ [] ∧ 0 ∉ read)
    (hs : ∀ line ∈ streamLines (dataReads C.reads).flatten, line.length < 1024) :
    PrintsLines C ↔ KeepsEnds (dataReads C.reads) := by
  have hnul : ∀ read ∈ dataReads C.reads, 0 ∉ read := fun read hm => (hr read hm).2
  have hne : ∀ read ∈ dataReads C.reads, read ≠ [] := fun read hm => (hr read hm).1
  have hpoll := poll_lines hp (C.reads.length+2) (owes_spawned hh) le_rfl
  rw [← flushed_cutAll_iff hnul hne]
  constructor
  · rintro ⟨code,s,hrun,hprinted⟩
    rw [wp,hrun] at hpoll
    rcases hpoll with ⟨_,_,hl⟩ | ⟨_,hover⟩
    · rw [← hl,hprinted]
    · cases hover
  · intro heq
    have hfits : Fits [] (dataReads C.reads) := fits_of_short hnul (by rwa [heq])
    rcases hpoll with ⟨_,⟨code,hcode⟩,hl⟩ | ⟨hno,_⟩
    · exact ⟨code,_,Prod.ext hcode rfl,hl.trans heq⟩
    · exact absurd hfits hno

end

/-- A child that writes the given chunks and exits with 0. -/
def Child.writes (chunks : List Bytes) : Child where
  command := "child"
  noisy := false
  print := fun _ => none
  printCommand := none
  setup := none
  created := some 0
  reads := chunks.map .data
  silent h := by cases h

theorem printsLines_abc : PrintsLines (Child.writes [[97,13,10,98],[99,13]]) :=
  (printsLines_iff (Child.writes [[97,13,10,98],[99,13]]) (fun _ => rfl)
    (by simp [Child.writes]) (by decide) (by decide)).mpr (by decide)

/-- The two lines "a" and "b" with a read that ends between CR and LF. -/
theorem cut_end_printed : ¬PrintsLines (Child.writes [[97,13],[10,98]]) := by
  rintro ⟨code,s,hrun,hprinted⟩
  have hlines : (poll (Child.writes [[97,13],[10,98]]) 4
      (spawned (Child.writes [[97,13],[10,98]]))).2.printed = [[97],[10,98]] := by decide
  rw [show (4 : ℕ) = (Child.writes [[97,13],[10,98]]).reads.length+2 from rfl,hrun,hprinted] at hlines
  exact absurd hlines (by decide)

end Presto

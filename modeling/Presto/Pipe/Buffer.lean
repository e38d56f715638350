import Presto.Pipe.Lines
import Mathlib.Data.List.DropRight

/-! The helper of `flushio` over its two buffers: it cuts a read as `cutLines` does, its counter
never falls below zero, and `leftovers` is kept in bounds as long as the lines are short. -/
namespace Presto

/-- The C string at the beginning of a buffer. -/
def cstr (s : Bytes) : Bytes := s.takeWhile (· ≠ 0)

/-- The variables of `make_proc_flushio_helper`; `leftovers` is what `strcat` has written. -/
structure Scan where
  buffer : Bytes
  leftovers : Bytes
  printed : List Bytes
  pos : ℕ
  lineStart : ℕ
  dwRead : ℕ
  deriving DecidableEq

namespace Scan

/-- `dwRead--; pos++;`, unless the counter falls below zero. -/
def advance (s : Scan) : Option Scan :=
  match s.dwRead with
  | 0 => none
  | n+1 => some { s with dwRead := n, pos := s.pos+1 }

/-- The line that ends at `pos` gets its NUL and is printed behind the leftovers. -/
def printLine (s : Scan) : Scan := { s with
  buffer := s.buffer.set s.pos 0
  printed := s.printed++[s.leftovers++cstr ((s.buffer.set s.pos 0).drop s.lineStart)]
  leftovers := [] }

/-- What the loop does at a CR. -/
def endLine (s : Scan) : Option Scan :=
  let t := s.printLine
  (if t.buffer[t.pos+1]? = some LF then t.advance else some t).map
    fun u => { u with lineStart := u.pos+1 }

/-- `while(dwRead && *pos)`: no result if the counter falls below zero or the buffer is left. -/
def loop : ℕ → Scan → Option Scan
  | n,s =>
    if s.dwRead = 0 then some s
    else
      match n,s.buffer[s.pos]? with
      | 0,_ => none
      | _,none => none
      | n+1,some b =>
        if b = 0 then some s
        else do
          let t ← if b = CR then s.endLine else some s
          let u ← t.advance
          loop n u

/-- The `strcat` after the loop. -/
def keep (s : Scan) : Scan :=
  if s.lineStart ≠ s.pos then
    { s with leftovers := s.leftovers++cstr (s.buffer.drop s.lineStart) }
  else s

end Scan

/-- `make_proc_flushio_helper(L,p,dwRead)` with what it prints. -/
def flushioScan (buffer leftovers : Bytes) (dwRead : ℕ) : Option Scan :=
  (Scan.loop dwRead ⟨buffer.set dwRead 0,leftovers,[],0,0,dwRead⟩).map Scan.keep

/-- The read buffer when `ReadFile` has stored some bytes. -/
def stored (buffer read : Bytes) : Bytes := read++buffer.drop read.length

/-- Every call of the helper, one for each read, ends in a state with `P`. -/
def EachCall (P : Scan → Prop) (buffer leftovers : Bytes) : List Bytes → Prop
  | [] => True
  | read::reads => ∃ s, flushioScan (stored buffer read) leftovers read.length = some s ∧ P s ∧
      EachCall P s.buffer s.leftovers reads

theorem cutLines_nul (line rest : Bytes) : cutLines line (0::rest) = ([],line) := by
  cases rest <;> simp [cutLines]

namespace Scan

/-- The loop is at `rest` in a read that is followed by a NUL, with `line` behind it since the
last end of a line. -/
structure At (s : Scan) (before line rest after : Bytes) : Prop where
  buffer : s.buffer = before++line++rest++0::after
  lineStart : s.lineStart = before.length
  pos : s.pos = before.length+line.length
  dwRead : s.dwRead = rest.length
  clean : 0 ∉ line

section
variable {s : Scan} {before line rest after : Bytes} {b : UInt8}

theorem cstr_append (hl : 0 ∉ line) (after : Bytes) : cstr (line++0::after) = line := by
  unfold cstr
  rw [List.takeWhile_append_of_pos fun b hb => by simpa using ne_of_mem_of_not_mem hb hl]
  simp

theorem At.head (h : s.At before line (b::rest) after) : s.buffer[s.pos]? = some b := by
  rw [h.buffer,h.pos]
  simp

theorem At.advance (h : s.At before line (b::rest) after) (hb : b ≠ 0) :
    ∃ t, s.advance = some t ∧ t.At before (line++[b]) rest after ∧
      t.leftovers = s.leftovers ∧ t.printed = s.printed ∧ t.buffer = s.buffer := by
  have hn : s.dwRead = rest.length+1 := h.dwRead
  refine ⟨{ s with dwRead := rest.length, pos := s.pos+1 },?_,⟨?_,h.lineStart,?_,rfl,?_⟩,rfl,
    rfl,rfl⟩
  · unfold Scan.advance
    rw [hn]
  · rw [h.buffer]
    simp
  · have := h.pos
    simp only [List.length_append,List.length_singleton]
    omega
  · simp [h.clean,hb.symm]

/-- At a CR the line is printed, and an LF right behind it belongs to it. -/
theorem At.endLine (h : s.At before line (CR::rest) after) :
    ∃ t u, s.endLine = some t ∧ t.advance = some u ∧
      (∃ before', u.At before' [] (skipLF rest) after) ∧
      u.leftovers = [] ∧ u.printed = s.printed++[s.leftovers++line] ∧
      u.buffer.length = s.buffer.length := by
  have hn : s.dwRead = rest.length+1 := h.dwRead
  have hset : s.buffer.set s.pos 0 = before++line++0::(rest++0::after) := by
    rw [h.buffer,h.pos]
    simp
  have hline : s.printLine = { s with
      buffer := before++line++0::(rest++0::after)
      printed := s.printed++[s.leftovers++line]
      leftovers := [] } := by
    unfold printLine
    rw [hset,h.lineStart,List.append_assoc,List.drop_left,cstr_append h.clean]
  have hnext : (before++line++0::(rest++0::after))[s.pos+1]? = (rest++0::after).head? := by
    rw [h.pos,List.getElem?_append_right (by simp)]
    cases rest <;> simp
  unfold Scan.endLine
  rw [hline]
  dsimp only
  rw [hnext]
  by_cases hlf : rest.head? = some LF
  · obtain ⟨rest',rfl⟩ : ∃ rest', rest = LF::rest' := by
      cases rest with
      | nil => cases hlf
      | cons c rest' => exact ⟨rest',by rw [Option.some.inj hlf]⟩
    refine ⟨_,_,by simp [Scan.advance,hn]; rfl,rfl,⟨before++line++[0,LF],?_,?_,?_,?_,?_⟩,rfl,rfl,
      by simp [h.buffer]⟩
    all_goals simp [skipLF,h.pos,Nat.add_assoc]
  · have hne : (rest++0::after).head? ≠ some LF := by
      cases rest with
      | nil => simp [LF]
      | cons c rest' => simpa using hlf
    rw [if_neg hne]
    refine ⟨_,_,rfl,by simp [Scan.advance,hn]; rfl,⟨before++line++[0],?_,?_,?_,?_,?_⟩,rfl,rfl,
      by simp [h.buffer]⟩
    all_goals simp [skipLF,hlf,h.pos,Nat.add_assoc]

theorem At.keep (h : s.At before line rest after) (hr : rest.head?.getD 0 = 0) :
    s.keep.leftovers = s.leftovers++line := by
  obtain ⟨tail,htail⟩ : ∃ tail, rest++0::after = 0::tail := by
    cases rest with
    | nil => exact ⟨after,rfl⟩
    | cons b rest => exact ⟨rest++0::after,by rw [show b = 0 from hr]; rfl⟩
  have hline : cstr (s.buffer.drop s.lineStart) = line := by
    rw [h.buffer,h.lineStart,List.append_assoc,List.append_assoc,List.drop_left,htail,
      cstr_append h.clean]
  unfold Scan.keep
  rw [hline,h.lineStart,h.pos]
  cases line <;> simp

/-- The loop ends, and it cuts the read as `cutLines` does. -/
theorem At.loop (n : ℕ) (hn : rest.length ≤ n) (h : s.At before line rest after) :
    ∃ t, s.loop n = some t ∧ t.printed = s.printed++(cutLines (s.leftovers++line) rest).1 ∧
      t.keep.leftovers = (cutLines (s.leftovers++line) rest).2 ∧
      t.buffer.length = s.buffer.length := by
  induction n generalizing s before line rest with
  | zero =>
    obtain rfl := List.length_eq_zero_iff.mp (Nat.le_zero.mp hn)
    have hd : s.dwRead = 0 := h.dwRead
    exact ⟨s,by unfold Scan.loop; rw [if_pos hd],by simp [cutLines],h.keep rfl,rfl⟩
  | succ n ih =>
    cases rest with
    | nil =>
      have hd : s.dwRead = 0 := h.dwRead
      exact ⟨s,by unfold Scan.loop; rw [if_pos hd],by simp [cutLines],h.keep rfl,rfl⟩
    | cons b rest =>
      have hd : s.dwRead ≠ 0 := by simp [h.dwRead]
      have hlen : rest.length ≤ n := by simpa using hn
      unfold Scan.loop
      rw [if_neg hd,h.head]
      by_cases hb : b = 0
      · subst hb
        exact ⟨s,by simp,by simp [cutLines_nul],by rw [cutLines_nul,h.keep rfl],rfl⟩
      · rw [cutLines_cons hb]
        by_cases hcr : b = CR
        · subst hcr
          obtain ⟨t,u,ht,hu,⟨before',hat⟩,hleft,hprinted,hsize⟩ := h.endLine
          obtain ⟨v,hv,hvp,hvk,hvs⟩ := ih ((skipLF_length rest).trans hlen) hat
          rw [hleft,hprinted] at hvp
          rw [hleft] at hvk
          exact ⟨v,by simp [hb,ht,hu,hv],by simpa using hvp,by simpa using hvk,hvs.trans hsize⟩
        · obtain ⟨t,ht,hat,hleft,hprinted,hsize⟩ := h.advance hb
          obtain ⟨v,hv,hvp,hvk,hvs⟩ := ih hlen hat
          rw [hleft,hprinted,← List.append_assoc] at hvp
          rw [hleft,← List.append_assoc] at hvk
          exact ⟨v,by simp [hb,hcr,ht,hv],by simpa [hcr] using hvp,by simpa [hcr] using hvk,
            by rw [hvs,hsize]⟩

end
end Scan

/-- The line that is open behind a read: what follows the last CR, without the LF that belongs to
it, or the whole read behind the line that was open before. A read counts up to its first NUL. -/
def openLine (line read : Bytes) : Bytes :=
  if CR ∈ cstr read then skipLF ((cstr read).rtakeWhile (· ≠ CR)) else line++cstr read

/-- The line that is open leaves room for a NUL in 1024 bytes, after each read. -/
def Roomy (reads : List Bytes) : Prop :=
  ∀ past ∈ reads.inits, (past.foldl openLine []).length ≤ 1023

instance (reads : List Bytes) : Decidable (Roomy reads) :=
  inferInstanceAs (Decidable (∀ past ∈ reads.inits, _))

theorem rtakeWhile_cons {p : UInt8 → Bool} {s : Bytes} (h : ∃ c ∈ s, ¬p c) (b : UInt8) :
    (b::s).rtakeWhile p = s.rtakeWhile p := by
  obtain ⟨c,hc,hp⟩ := h
  have hne : (s.reverse.takeWhile p).length ≠ s.reverse.length := by
    intro hlen
    have hall := List.takeWhile_eq_self_iff.mp ((List.takeWhile_prefix p).eq_of_length hlen)
    exact hp (hall c (List.mem_reverse.mpr hc))
  unfold List.rtakeWhile
  rw [List.reverse_cons,List.takeWhile_append,if_neg hne]

theorem rtakeWhile_ended {s : Bytes} (h : CR ∉ s) : (CR::s).rtakeWhile (· ≠ CR) = s := by
  have hall : ∀ b ∈ s.reverse, decide (b ≠ CR) = true := fun b hb => by
    simpa using ne_of_mem_of_not_mem (List.mem_reverse.mp hb) h
  unfold List.rtakeWhile
  rw [List.reverse_cons,List.takeWhile_append_of_pos hall]
  simp

theorem cstr_cons {b : UInt8} (hb : b ≠ 0) (s : Bytes) : cstr (b::s) = b::cstr s := by
  simp [cstr,hb]

theorem cstr_skipLF (s : Bytes) : cstr (skipLF s) = skipLF (cstr s) := by
  cases s with
  | nil => rfl
  | cons b s =>
    by_cases hb : b = 0
    · subst hb
      simp [cstr,skipLF,LF]
    · rw [cstr_cons hb]
      by_cases hlf : b = LF <;> simp [skipLF,hlf,cstr_cons hb]

theorem mem_skipLF (s : Bytes) : CR ∈ skipLF s ↔ CR ∈ s := by
  cases s with
  | nil => rfl
  | cons b s =>
    by_cases hlf : b = LF
    · simp [skipLF,hlf,show CR ≠ LF by decide]
    · simp [skipLF,hlf]

theorem rtakeWhile_skipLF {s : Bytes} (h : CR ∈ s) :
    (skipLF s).rtakeWhile (· ≠ CR) = s.rtakeWhile (· ≠ CR) := by
  cases s with
  | nil => rfl
  | cons b s =>
    by_cases hlf : b = LF
    · have hmem : CR ∈ s := by simpa [hlf,show CR ≠ LF by decide] using h
      rw [rtakeWhile_cons ⟨CR,hmem,by simp⟩]
      simp [skipLF,hlf]
    · simp [skipLF,hlf]

/-- What the helper leaves over is the line that is open. -/
theorem cutLines_openLine (line read : Bytes) : (cutLines line read).2 = openLine line read := by
  induction read using skipLF_induction generalizing line with
  | nil => simp [cutLines,openLine,cstr]
  | cons b rest hskip ih =>
    by_cases hb : b = 0
    · subst hb
      simp [cutLines_nul,openLine,cstr]
    · rw [cutLines_cons hb]
      unfold openLine
      rw [cstr_cons hb]
      by_cases hcr : b = CR
      · subst hcr
        rw [if_pos rfl,if_pos List.mem_cons_self]
        have hrest := hskip []
        rw [hrest]
        unfold openLine
        rw [cstr_skipLF,List.nil_append]
        by_cases hmem : CR ∈ cstr rest
        · rw [if_pos ((mem_skipLF _).mpr hmem),rtakeWhile_skipLF hmem,
            rtakeWhile_cons ⟨CR,hmem,by simp⟩]
        · rw [if_neg (mt (mem_skipLF _).mp hmem),rtakeWhile_ended hmem]
      · rw [if_neg hcr,ih (line++[b])]
        unfold openLine
        simp only [List.mem_cons,Ne.symm hcr,false_or]
        split_ifs with hmem
        · rw [rtakeWhile_cons ⟨CR,hmem,by simp⟩]
        · rw [List.append_assoc]
          rfl

section
variable {buffer leftovers read line : Bytes} {reads : List Bytes} {P Q : Scan → Prop}

/-- The helper on a read that leaves room for the NUL: the counter stays above zero, and it does
what `cutLines` does. -/
theorem flushioScan_eq (hb : buffer.length = 1024) (hr : read.length ≤ 1023) (leftovers : Bytes) :
    ∃ s, flushioScan (stored buffer read) leftovers read.length = some s ∧
      s.printed = (cutLines leftovers read).1 ∧ s.leftovers = (cutLines leftovers read).2 ∧
      s.buffer.length = 1024 := by
  obtain ⟨b,after,hafter⟩ : ∃ b after, buffer.drop read.length = b::after :=
    List.exists_cons_of_ne_nil (by simp; omega)
  have hset : (stored buffer read).set read.length 0 = read++0::after := by
    simp [stored,hafter]
  have hlen : (read++0::after).length = 1024 := by
    have := congrArg List.length hafter
    simp only [List.length_drop,List.length_cons] at this
    simp only [List.length_append,List.length_cons]
    omega
  unfold flushioScan
  rw [hset]
  have hat : Scan.At ⟨read++0::after,leftovers,[],0,0,read.length⟩ [] [] read after :=
    ⟨by simp,rfl,rfl,rfl,by simp⟩
  obtain ⟨t,ht,hp,hk,hs⟩ := hat.loop read.length le_rfl
  refine ⟨t.keep,by simp [ht],?_,by simpa using hk,?_⟩
  · rw [show t.keep.printed = t.printed by unfold Scan.keep; split_ifs <;> rfl]
    simpa using hp
  · rw [show t.keep.buffer = t.buffer by unfold Scan.keep; split_ifs <;> rfl,hs]
    exact hlen

theorem eachCall_iff (hb : buffer.length = 1024) (hr : ∀ read ∈ reads, read.length ≤ 1023)
    (leftovers : Bytes) {R : Bytes → Prop} (hP : ∀ s, P s ↔ R s.leftovers) :
    EachCall P buffer leftovers reads ↔
      ∀ past ∈ reads.inits, past ≠ [] → R (past.foldl openLine leftovers) := by
  induction reads generalizing buffer leftovers with
  | nil => simp [EachCall]
  | cons read reads ih =>
    obtain ⟨s,hs,-,hleft,hlen⟩ := flushioScan_eq hb (hr read List.mem_cons_self) leftovers
    rw [cutLines_openLine] at hleft
    have hrest := ih hlen (fun r hm => hr r (List.mem_cons_of_mem _ hm)) s.leftovers
    have hcall : EachCall P buffer leftovers (read::reads) ↔
        P s ∧ EachCall P s.buffer s.leftovers reads := by
      simp only [EachCall,hs,Option.some.injEq,exists_eq_left']
    rw [hcall,hP,hrest,hleft]
    simp only [List.inits_cons,List.mem_cons,List.mem_map]
    constructor
    · rintro ⟨hfirst,hpast⟩ _ (rfl | ⟨past,hm,rfl⟩) hne
      · exact absurd rfl hne
      · by_cases hnil : past = []
        · rwa [hnil]
        · exact hpast past hm hnil
    · intro h
      exact ⟨h [read] (.inr ⟨[],by simp,rfl⟩) (by simp),
        fun past hm _ => h (read::past) (.inr ⟨past,hm,rfl⟩) (by simp)⟩

/-- The counter of the helper never falls below zero, and `leftovers` holds at most 1023 bytes
after each of its calls exactly if the open line does. -/
theorem leftovers_bounded_iff (hb : buffer.length = 1024) (hr : ∀ read ∈ reads, read.length ≤ 1023) :
    EachCall (fun _ => True) buffer [] reads ∧
      (EachCall (fun s => s.leftovers.length ≤ 1023) buffer [] reads ↔ Roomy reads) := by
  refine ⟨(eachCall_iff hb hr [] (R := fun _ => True) fun _ => Iff.rfl).mpr fun _ _ _ => trivial,?_⟩
  rw [eachCall_iff hb hr [] (R := fun line => line.length ≤ 1023) fun _ => Iff.rfl]
  refine forall₂_congr fun past _ => ⟨fun h => ?_,fun h _ => h⟩
  by_cases hnil : past = []
  · simp [hnil]
  · exact h hnil

end

theorem leftovers_bounded_abc :
    EachCall (fun s => s.leftovers.length ≤ 1023) (List.replicate 1024 0) []
      [[97,13,10,98],[99,13]] :=
  (leftovers_bounded_iff List.length_replicate (by decide)).2.mpr (by decide)

/-- A line of 1024 bytes in two reads. -/
theorem leftovers_overflow : ¬EachCall (fun s => s.leftovers.length ≤ 1023) (List.replicate 1024 0) []
    [List.replicate 1023 97,[97]] := by
  have hplain : ∀ n, cstr (List.replicate n 97) = List.replicate n 97 := fun n => by
    simp [cstr]
  have hopen : ∀ line n, openLine line (List.replicate n 97) = line++List.replicate n 97 := by
    intro line n
    unfold openLine
    rw [hplain,if_neg (by simp [CR])]
  have hreads : ∀ read ∈ [List.replicate 1023 97,[(97 : UInt8)]], read.length ≤ 1023 := by
    simp only [List.forall_mem_cons,List.length_replicate]
    decide
  rw [eachCall_iff List.length_replicate hreads [] (R := fun line => line.length ≤ 1023)
    fun _ => Iff.rfl]
  intro h
  have hlen := h [List.replicate 1023 97,List.replicate 1 97] 
    ((List.mem_inits _ _).mpr (List.prefix_refl _)) (List.cons_ne_nil _ _)
  simp only [List.foldl,hopen,List.length_append,List.length_replicate,List.length_nil] at hlen
  omega

end Presto

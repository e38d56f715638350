import Mathlib.Logic.Function.Iterate
import Mathlib.Data.List.DropRight
import Mathlib.Tactic

/-! `make.dir.md`, which makes a directory and the directories above it. -/
namespace Presto

/-- The text of a path. -/
abbrev WPath := List Char

/-- The functions of Windows that `__make_dir_md` calls. The directories are those of
`PathIsDirectoryW`; `PathFindFileNameW` gives a position in its argument, and no result of
`CreateDirectoryW` is a failure. -/
structure Windows where
  fileName : WPath → ℕ
  create : (WPath → Bool) → WPath → Option (WPath → Bool)
  fileName_le (p : WPath) : fileName p ≤ p.length
  create_isDir {dirs dirs' : WPath → Bool} {p : WPath} : create dirs p = some dirs' → dirs' p = true
  create_keeps {dirs dirs' : WPath → Bool} {p q : WPath} :
    create dirs p = some dirs' → dirs q = true → dirs' q = true

/-- The path buffer, the existing directories, and the calls of `CreateDirectoryW` with their
success. -/
structure MdState where
  buffer : List Char
  dirs : WPath → Bool
  calls : List (WPath × Bool)

/-- The character that ends a text. -/
def NUL : Char := '\x00'

/-- The text at the beginning of a buffer. -/
def wtext (buffer : List Char) : WPath := buffer.takeWhile (· ≠ NUL)

variable (W : Windows)

/-- `CreateDirectoryW(path_in,NULL)` -/
def createDirectory (s : MdState) : Bool × MdState :=
  match W.create s.dirs (wtext s.buffer) with
  | some dirs => (true,{ s with dirs := dirs, calls := s.calls++[(wtext s.buffer,true)] })
  | none => (false,{ s with calls := s.calls++[(wtext s.buffer,false)] })

/-- `__make_dir_md` with room for some calls on the stack; the path is cut in place. -/
def makeDirMd : ℕ → MdState → Option (Bool × MdState)
  | 0,_ => none
  | n+1,s =>
    if s.dirs (wtext s.buffer) then some (true,s)
    else
      let pathOut := W.fileName (wtext s.buffer)
      let sep := s.buffer.getD pathOut NUL
      match makeDirMd n { s with buffer := s.buffer.set pathOut NUL } with
      | none => none
      | some (made,t) =>
        let t := { t with buffer := t.buffer.set pathOut sep }
        if made then some (createDirectory W t) else some (false,t)

/-- The path without its last component. -/
def cutName (p : WPath) : WPath := p.take (W.fileName p)

/-- The call returns, the path is in the buffer as before and no directory is gone. After a
success the path and all that is above it are directories, and a failure is one of
`CreateDirectoryW`. -/
def MakesDir (p : WPath) (s : MdState) : Prop :=
  ∃ n made t, makeDirMd W n s = some (made,t) ∧ t.buffer = s.buffer ∧
    (∀ q, s.dirs q = true → t.dirs q = true) ∧
    (made = true → ∀ k, (cutName W)^[k] p ≠ [] → t.dirs ((cutName W)^[k] p) = true) ∧
    ∃ calls, t.calls = s.calls++calls ∧ (made = false → ∃ q, (q,false) ∈ calls)

section
variable {W} {p : WPath} {s : MdState}

theorem wtext_append (hp : NUL ∉ p) (after : List Char) : wtext (p++NUL::after) = p := by
  unfold wtext
  rw [List.takeWhile_append_of_pos fun c hc => by simpa using ne_of_mem_of_not_mem hc hp]
  simp

/-- The buffer with the path cut at one of its positions. -/
theorem set_cut {k : ℕ} (hk : k ≤ p.length) (after : List Char) :
    ∃ rest, (p++NUL::after).set k NUL = p.take k++NUL::rest ∧
      (p.take k++NUL::rest).set k ((p++NUL::after).getD k NUL) = p++NUL::after := by
  obtain ⟨front,back,rfl,rfl⟩ : ∃ front back, p = front++back ∧ front.length = k :=
    ⟨p.take k,p.drop k,(List.take_append_drop k p).symm,by simp [hk]⟩
  cases back with
  | nil => exact ⟨after,by simp,by simp⟩
  | cons c back => exact ⟨back++NUL::after,by simp,by simp⟩

theorem notMem_cutName (hp : NUL ∉ p) : NUL ∉ cutName W p :=
  fun h => hp (List.mem_of_mem_take h)

/-- Above a directory there are directories. -/
theorem dirs_above (htree : ∀ q, s.dirs q = true → cutName W q ≠ [] → s.dirs (cutName W q) = true)
    (hd : s.dirs p = true) (k : ℕ) (hk : (cutName W)^[k] p ≠ []) : s.dirs ((cutName W)^[k] p) = true := by
  induction k with
  | zero => exact hd
  | succ k ih =>
    rw [Function.iterate_succ_apply'] at hk ⊢
    refine htree _ (ih fun hnil => hk ?_) hk
    rw [hnil,cutName,List.take_nil]

/-- What a call leaves behind, if it returns. -/
theorem makeDirMd_correct (n : ℕ) {after : List Char} (hp : NUL ∉ p)
    (hs : s.buffer = p++NUL::after)
    (htree : ∀ q, s.dirs q = true → cutName W q ≠ [] → s.dirs (cutName W q) = true)
    {made : Bool} {t : MdState} (hrun : makeDirMd W n s = some (made,t)) :
    t.buffer = s.buffer ∧ (∀ q, s.dirs q = true → t.dirs q = true) ∧
      (made = true → ∀ k, (cutName W)^[k] p ≠ [] → t.dirs ((cutName W)^[k] p) = true) ∧
      ∃ calls, t.calls = s.calls++calls ∧ (made = false → ∃ q, (q,false) ∈ calls) := by
  induction n generalizing p s after made t with
  | zero => cases hrun
  | succ n ih =>
    have htext : wtext s.buffer = p := by rw [hs,wtext_append hp]
    unfold makeDirMd at hrun
    rw [htext] at hrun
    by_cases hd : s.dirs p = true
    · rw [if_pos hd] at hrun
      obtain ⟨rfl,rfl⟩ := Prod.mk.inj (Option.some.inj hrun)
      exact ⟨rfl,fun _ h => h,fun _ => dirs_above htree hd,[],by simp,nofun⟩
    · rw [if_neg hd] at hrun
      obtain ⟨rest,hcut,hback⟩ := set_cut (W.fileName_le p) after
      rw [hs] at hrun
      dsimp only at hrun
      rw [hcut] at hrun
      rcases hrec : makeDirMd W n { s with buffer := p.take (W.fileName p)++NUL::rest } with
        _ | ⟨above,u⟩
      · rw [hrec] at hrun
        cases hrun
      obtain ⟨hbuf,hkeep,hmade,calls,hcalls,hfail⟩ := ih (notMem_cutName hp)
        (s := { s with buffer := p.take (W.fileName p)++NUL::rest }) rfl htree hrec
      rw [hrec] at hrun
      dsimp only at hrun hbuf
      rw [hbuf,hback,← hs] at hrun
      cases above with
      | false =>
        obtain ⟨rfl,rfl⟩ := Prod.mk.inj (Option.some.inj hrun)
        exact ⟨rfl,hkeep,nofun,calls,hcalls,hfail⟩
      | true =>
        simp only [if_true,createDirectory,htext,Option.some.injEq] at hrun
        rcases hcreate : W.create u.dirs p with _ | dirs
        · rw [hcreate] at hrun
          obtain ⟨rfl,rfl⟩ := Prod.mk.inj hrun
          exact ⟨rfl,hkeep,nofun,calls++[(p,false)],by simp [hcalls],fun _ => ⟨p,by simp⟩⟩
        · rw [hcreate] at hrun
          obtain ⟨rfl,rfl⟩ := Prod.mk.inj hrun
          refine ⟨rfl,fun q hq => W.create_keeps hcreate (hkeep q hq),fun _ k hk => ?_,
            calls++[(p,true)],by simp [hcalls],nofun⟩
          cases k with
          | zero => exact W.create_isDir hcreate
          | succ k => exact W.create_keeps hcreate (hmade rfl k hk)

/-- The call returns exactly if there is a directory to begin with. -/
theorem makeDirMd_returns {after : List Char} (hp : NUL ∉ p) (hs : s.buffer = p++NUL::after) :
    (∃ n r, makeDirMd W n s = some r) ↔ ∃ k, s.dirs ((cutName W)^[k] p) = true := by
  constructor
  · rintro ⟨n,r,hrun⟩
    induction n generalizing p s after r with
    | zero => cases hrun
    | succ n ih =>
      unfold makeDirMd at hrun
      rw [hs,wtext_append hp] at hrun
      by_cases hd : s.dirs p = true
      · exact ⟨0,hd⟩
      · obtain ⟨rest,hcut,-⟩ := set_cut (W.fileName_le p) after
        rw [if_neg hd] at hrun
        dsimp only at hrun
        rw [hcut] at hrun
        rcases hrec : makeDirMd W n { s with buffer := p.take (W.fileName p)++NUL::rest } with
          _ | r'
        · rw [hrec] at hrun
          cases hrun
        · obtain ⟨k,hk⟩ := ih (notMem_cutName hp) rfl r' hrec
          exact ⟨k+1,hk⟩
  · rintro ⟨k,hk⟩
    induction k generalizing p s after with
    | zero =>
      refine ⟨1,(true,s),?_⟩
      unfold makeDirMd
      rw [hs,wtext_append hp,if_pos (show s.dirs p = true from hk)]
    | succ k ih =>
      by_cases hd : s.dirs p = true
      · refine ⟨1,(true,s),?_⟩
        unfold makeDirMd
        rw [hs,wtext_append hp,if_pos hd]
      · obtain ⟨rest,hcut,-⟩ := set_cut (W.fileName_le p) after
        obtain ⟨n,⟨above,u⟩,hrec⟩ := ih (notMem_cutName hp)
          (s := { s with buffer := p.take (W.fileName p)++NUL::rest }) rfl hk
        refine ⟨n+1,?_⟩
        unfold makeDirMd
        rw [hs,wtext_append hp,if_neg hd]
        dsimp only
        rw [hcut,hrec]
        cases above <;> exact ⟨_,rfl⟩

end

/-- `__make_dir_md` keeps its promise exactly if the path or one of those above it is a
directory. -/
theorem makesDir_iff {p : WPath} (hp : NUL ∉ p) {s : MdState} {after : List Char}
    (hs : s.buffer = p++NUL::after)
    (htree : ∀ q, s.dirs q = true → cutName W q ≠ [] → s.dirs (cutName W q) = true) :
    MakesDir W p s ↔ ∃ k, s.dirs ((cutName W)^[k] p) = true := by
  rw [← makeDirMd_returns hp hs]
  constructor
  · rintro ⟨n,made,t,hrun,_⟩
    exact ⟨n,_,hrun⟩
  · rintro ⟨n,⟨made,t⟩,hrun⟩
    exact ⟨n,made,t,hrun,makeDirMd_correct n hp hs htree hrun⟩

/-- The start of the last component: the last position behind a separator that is none itself. -/
def lastName (p : WPath) : ℕ :=
  ((List.range p.length).filter fun k => 0 < k ∧ p.getD (k-1) ' ' ∈ ['\\',':'] ∧ p.getD k ' ' ≠ '\\').getLastD 0

theorem lastName_le (p : WPath) : lastName p ≤ p.length := by
  unfold lastName
  rw [List.getLastD_eq_getLast?]
  rcases h : List.getLast? _ with _ | k
  · exact Nat.zero_le _
  · have hk := (List.mem_filter.mp (List.mem_of_getLast? h)).1
    exact (List.mem_range.mp hk).le

/-- A disk on which a directory is made if it is not there and the one above it is. -/
def disk : Windows where
  fileName := lastName
  create dirs p :=
    if dirs p ∨ p.take (lastName p) ≠ [] ∧ ¬dirs (p.take (lastName p)) then none
    else some fun q => q.rdropWhile (· = '\\') = p.rdropWhile (· = '\\') ∨ dirs q
  fileName_le := lastName_le
  create_isDir h := by
    split_ifs at h
    simp [← Option.some.inj h]
  create_keeps h hq := by
    split_ifs at h
    simp [← Option.some.inj h,hq]

/-- A path in the buffer and a disk with nothing but its root. -/
def onRoot (p : WPath) : MdState := ⟨p++[NUL],fun q => q = "C:\\".toList,[]⟩

theorem makesDir_root : MakesDir disk "C:\\a\\b".toList (onRoot "C:\\a\\b".toList) := by
  refine (makesDir_iff disk (by decide) rfl fun q hq hne => ?_).mpr ⟨2,by decide⟩
  obtain rfl : q = "C:\\".toList := of_decide_eq_true hq
  exact absurd (by decide) hne

/-- A relative path with one component: the text above it is empty, and so is the one above that. -/
theorem relative_loops : ¬MakesDir disk "foo".toList (onRoot "foo".toList) := by
  rintro ⟨n,made,t,hrun,-⟩
  obtain ⟨k,hk⟩ := (makeDirMd_returns (by decide) rfl).mp ⟨n,_,hrun⟩
  have hnil : ∀ k, (cutName disk)^[k] [] = [] := fun k => by
    induction k with
    | zero => rfl
    | succ k ih => exact (Function.iterate_succ_apply _ k []).trans ih
  cases k with
  | zero => exact absurd hk (by decide)
  | succ k =>
    rw [Function.iterate_succ_apply,show cutName disk "foo".toList = [] by decide,hnil] at hk
    exact absurd hk (by decide)

end Presto

import Presto.Pipe

/-! `make.run` returns only after a child that has exited with 0, provided a child was created. -/
namespace Presto
open Program

/-- If `make.run` returns, the child was created and its exit code was 0. -/
def ReturnsOnlyOnSuccess (C : Child) : Prop :=
  ∀ s, (makeRun C s).1 = .ret () → C.created = some 0

/-- `make.run` raises before it tries to create a process. -/
def Child.RaisesFirst (C : Child) : Prop :=
  C.setup ≠ none ∨ C.noisy = true ∧ C.printCommand ≠ none

/-- The process is running, or it is done and has left its exit code. -/
def Reported (n : ℕ) (s : Pipe) : Prop :=
  s.proc.handle = .process ∨ s.proc.handle = .invalid ∧ s.proc.exitCode = n

/-- What is reported stays so. -/
def Reports (n : ℕ) (s s' : Pipe) : Prop := Reported n s → Reported n s'

instance (n : ℕ) : IsPreorder Pipe (Reports n) where
  refl _ h := h
  trans _ _ _ h h' hs := h' (h hs)

section
variable {C : Child} {n : ℕ}

theorem reports_printLines (lines : List Bytes) : Moves (Reports n) (printLines C lines) := by
  induction lines with
  | nil => exact moves_pure ()
  | cons line lines ih =>
    refine moves_bind ?_ fun _ => ih
    refine moves_bind (moves_modify fun _ => id) fun _ => ?_
    cases C.print line with
    | none => exact moves_pure ()
    | some msg => exact moves_raise _

theorem reports_flushioHelper (bytes : Bytes) : Moves (Reports n) (flushioHelper C bytes) := by
  refine moves_bind (moves_gets id) fun s => moves_bind (reports_printLines _) fun _ => ?_
  exact moves_ite (moves_modify fun _ => id) (moves_raise _)

theorem reports_brokenPipe (hn : C.created = some n) : Moves (Reports n) (brokenPipe C) := by
  refine moves_bind (moves_modify ?_) fun _ => moves_bind (moves_gets id) fun s =>
    moves_ite (reports_flushioHelper _) (moves_pure ())
  rintro s (hs | ⟨hs,hcode⟩)
  · exact .inr ⟨rfl,by simp [Pipe.close,hs,hn]⟩
  · exact .inr ⟨rfl,by simp [Pipe.close,hs,hcode]⟩

theorem reports_readError (r : ReadResult) : Moves (Reports n) (readError r) := by
  cases r with
  | failed code => exact moves_raise _
  | _ => exact moves_modify fun _ => id

theorem reports_readLoop (hn : C.created = some n) (reads : List ReadResult) :
    Moves (Reports n) (readLoop C reads) := by
  induction reads with
  | nil => exact reports_brokenPipe hn
  | cons r reads ih =>
    refine moves_bind (moves_modify fun _ => id) fun _ => ?_
    cases r with
    | data bytes =>
      exact moves_bind (reports_flushioHelper bytes) fun _ => moves_bind (moves_modify fun _ => id) fun _ => ih
    | incomplete => exact reports_readError _
    | failed code => exact reports_readError _

theorem reports_pendingRead (hn : C.created = some n) (reads : List ReadResult) :
    Moves (Reports n) (pendingRead C reads) := by
  cases reads with
  | nil => exact reports_brokenPipe hn
  | cons r reads =>
    refine moves_bind (moves_modify fun _ => id) fun _ => ?_
    cases r with
    | data bytes =>
      exact moves_bind (reports_flushioHelper bytes) fun _ => moves_bind (moves_modify fun _ => id) fun _ =>
        reports_readLoop hn reads
    | incomplete => exact reports_readError _
    | failed code => exact reports_readError _

theorem reports_flushio (hn : C.created = some n) : Moves (Reports n) (flushio C) := by
  refine moves_bind (moves_gets id) fun s => moves_ite (moves_pure ()) ?_
  exact moves_ite (reports_pendingRead hn _) (reports_readLoop hn _)

/-- The polling loop ends with the exit code of the child. -/
theorem poll_reported (hn : C.created = some n) (k : ℕ) {s : Pipe} (hs : Reported n s) :
    wp (poll C k) (fun o _ => ∀ code, o = .ret code → code = n) s := by
  induction k generalizing s with
  | zero =>
    intro code h
    cases h
  | succ k ih =>
    unfold poll exitCode
    rw [wp_bind,wp_bind_gets]
    by_cases hdone : s.proc.handle = .invalid
    · simp only [id,hdone,if_true,wp_pure,seqPost_ret]
      rintro code ⟨⟩
      rcases hs with hs | hs
      · rw [hdone] at hs
        cases hs
      · exact hs.2
    · simp only [id,hdone,if_false,wp_pure,seqPost_ret]
      apply wp_bind_of ((reports_flushio hn).wp s)
      · exact fun _ s' h => ih (h hs)
      · exact fun e s' _ code h => by cases h
      · exact fun s' _ code h => by cases h

/-- With no child `make.run` finds a broken pipe and an exit code of 0. -/
theorem makeRun_without_child (hnone : C.created = none) (hfirst : ¬C.RaisesFirst) (s : Pipe) :
    (makeRun C s).1 = .ret () := by
  unfold Child.RaisesFirst at hfirst
  push Not at hfirst
  obtain ⟨hsetup,hnoisy⟩ := hfirst
  have hprint : (if C.noisy then C.printCommand else none) = none := by
    split_ifs with h
    · exact hnoisy h
    · rfl
  unfold makeRun
  rw [hprint,hsetup,C.silent hnone]
  dsimp only
  rw [run_bind_modify]
  have hpoll : (poll C 2 (spawned C)).1 = .ret 0 := by
    simp only [poll,exitCode,flushio,spawned,hnone,C.silent hnone]
    rfl
  have hend : wp (poll C 2) (fun o _ => o = .ret 0) (spawned C) := hpoll
  have hrun : wp (poll C 2 >>= fun code =>
      if code ≠ 0 then Prog.raise (.lua ("[" ++ C.command ++ "] Error " ++ toString code))
      else pure ()) (fun o _ => o = .ret ()) (spawned C) := by
    apply wp_bind_of hend
    · rintro code s' ⟨⟩
      rfl
    · exact fun _ _ h => by cases h
    · exact fun _ h => by cases h
  exact hrun

/-- `make.run` returns only on success exactly if `CreateProcessW` creates the child, or if an
error comes before it. -/
theorem returnsOnlyOnSuccess_iff (C : Child) :
    ReturnsOnlyOnSuccess C ↔ C.created ≠ none ∨ C.RaisesFirst := by
  constructor
  · intro h
    by_contra hnot
    push Not at hnot
    have hret := h ⟨⟨.invalid,0,false,[]⟩,[],[]⟩ (makeRun_without_child hnot.1 hnot.2 _)
    rw [hnot.1] at hret
    cases hret
  · intro h s hret
    unfold makeRun at hret
    rcases hp : (if C.noisy then C.printCommand else none) with _ | msg
    · rcases hs : C.setup with _ | msg
      · rw [hp,hs] at hret
        have hcreated : C.created ≠ none := by
          refine h.resolve_right fun hfirst => hfirst.elim (fun hf => hf hs) fun hf => ?_
          rw [if_pos hf.1] at hp
          exact hf.2 hp
        obtain ⟨n,hn⟩ := Option.ne_none_iff_exists'.mp hcreated
        have hstart : Reported n (spawned C) := .inl (by simp [spawned,hn])
        have hrun : wp (poll C (C.reads.length+2) >>= fun code =>
            if code ≠ 0 then Prog.raise (.lua ("[" ++ C.command ++ "] Error " ++ toString code))
            else pure ()) (fun o _ => o = .ret () → C.created = some 0) (spawned C) := by
          apply wp_bind_of (poll_reported hn _ hstart)
          · intro code s' hcode
            obtain rfl := hcode code rfl
            rw [wp_ite]
            split_ifs with hzero
            · exact fun hr => by cases hr
            · exact fun _ => by rw [hn,not_not.mp hzero]
          · exact fun _ _ _ hr => by cases hr
          · exact fun _ _ hr => by cases hr
        exact hrun hret
      · rw [hp,hs] at hret
        cases hret
    · rw [hp] at hret
      cases hret

/-- A command that does not exist: no child, and nobody who writes. -/
def noSuchCommand : Child where
  command := "nosuch"
  noisy := false
  print := fun _ => none
  printCommand := none
  setup := none
  created := none
  reads := []
  silent := fun _ => rfl

theorem missing_command_succeeds : ¬ReturnsOnlyOnSuccess noSuchCommand := by
  intro h
  have hret := h (spawned noSuchCommand) (by decide)
  exact absurd hret (by decide)

end
end Presto

import Presto.Engine

/-! What `update_goals` does with the files in `make.delete_on_error` when a build fails. -/
namespace Presto
open Program

section
variable (E : Env) (c : Core)

/-- The run of `make.update_goals_p` under the `pcall` of `update_goals`. -/
def protectedRun : Outcome Value Unit × World :=
  updateGoalsP E ⟨{ c with deleteOnError := ∅ },[]⟩

/-- The message contains "Stop." itself. -/
def SaysStop (msg : String) : Prop := "Stop.".toList <:+: msg.toList

instance (msg : String) : Decidable (SaysStop msg) := by
  unfold SaysStop
  infer_instance

/-- After a failure the unfinished files are gone and a message with "Stop." is passed on;
otherwise no file is touched. -/
structure CleansUp : Prop where
  deleted : ∀ e, (protectedRun E c).1 = .raise e → ∀ f ∈ (protectedRun E c).2.now.deleteOnError,
    (protectedRun E c).2.now.files.exists f → (updateGoals E ⟨c,[]⟩).2.now.files f = .absent
  passedOn : ∀ msg, (protectedRun E c).1 = .raise (.str msg) → SaysStop msg →
    (updateGoals E ⟨c,[]⟩).1 = .raise (.str msg)
  kept : ∀ u, (protectedRun E c).1 = .ret u → ∀ f ∈ (protectedRun E c).2.now.deleteOnError,
    (updateGoals E ⟨c,[]⟩).2.now.files f = (protectedRun E c).2.now.files f

/-- The handler has nothing to do for this state: no name was recorded, or no such file exists
and the message is not one that must be passed on. -/
def NothingToUnlink (c : Core) (e : Value) : Prop :=
  c.deleteOnError = ∅ ∨ (∀ f ∈ c.deleteOnError, c.files.exists f = false) ∧
    ∀ msg, e = .str msg → ¬SaysStop msg

end

section
variable {E : Env} {c : Core}

theorem findsStop_of_saysStop {msg : String} (h : SaysStop msg) : findsStop msg = true := by
  obtain ⟨s,t,h⟩ := h
  refine List.any_eq_true.mpr ⟨"Stop.".toList++t,?_,?_⟩
  · rw [List.mem_tails,← h,List.append_assoc]
    exact List.suffix_append s _
  · rfl

theorem attempt_of_ret {u : Unit} (h : (protectedRun E c).1 = .ret u) :
    Prog.attempt (updateGoalsP E) ⟨{ c with deleteOnError := ∅ },[]⟩ =
      (.ret (.ok u),(protectedRun E c).2) := by
  unfold Prog.attempt
  rw [show updateGoalsP E ⟨{ c with deleteOnError := ∅ },[]⟩ = (.ret u,(protectedRun E c).2) from
    Prod.ext h rfl]

theorem attempt_of_raise {e : Value} (h : (protectedRun E c).1 = .raise e) :
    Prog.attempt (updateGoalsP E) ⟨{ c with deleteOnError := ∅ },[]⟩ =
      (.ret (.error e),(protectedRun E c).2) := by
  unfold Prog.attempt
  rw [show updateGoalsP E ⟨{ c with deleteOnError := ∅ },[]⟩ = (.raise e,(protectedRun E c).2) from
    Prod.ext h rfl]

theorem updateGoals_of_ret {u : Unit} (h : (protectedRun E c).1 = .ret u) :
    updateGoals E ⟨c,[]⟩ = (.ret (),(protectedRun E c).2) := by
  change (Prog.attempt (updateGoalsP E) >>= _) ⟨{ c with deleteOnError := ∅ },[]⟩ = _
  rw [run_bind_of_ret (attempt_of_ret h)]
  rfl

/-- The handler as a function of the state in which the build has failed. -/
theorem updateGoals_of_raise {e : Value} (h : (protectedRun E c).1 = .raise e) :
    (updateGoals E ⟨c,[]⟩).2 = (protectedRun E c).2 ∧
      ((protectedRun E c).2.now.deleteOnError ≠ ∅ →
        (updateGoals E ⟨c,[]⟩).1 = .raise (.str "attempt to call field 'exist' (a nil value)")) ∧
      ((protectedRun E c).2.now.deleteOnError = ∅ → ∀ msg, e = .str msg → findsStop msg = true →
        (updateGoals E ⟨c,[]⟩).1 = .raise e) := by
  have hwp : wp (updateGoals E) (fun o w => w = (protectedRun E c).2 ∧
      ((protectedRun E c).2.now.deleteOnError ≠ ∅ →
        o = .raise (.str "attempt to call field 'exist' (a nil value)")) ∧
      ((protectedRun E c).2.now.deleteOnError = ∅ → ∀ msg, e = .str msg → findsStop msg = true →
        o = .raise e)) ⟨c,[]⟩ := by
    unfold updateGoals
    rw [wp_bind_modify_quietly]
    apply wp_bind_ret (attempt_of_raise h)
    rw [wp_bind_core,wp_ite]
    split_ifs with hset
    · exact ⟨rfl,fun _ => rfl,fun hempty => absurd hempty hset⟩
    · cases e with
      | str msg =>
        dsimp only
        rw [wp_ite]
        split_ifs with hstop
        · exact ⟨rfl,fun hne => absurd hne hset,fun _ _ _ _ => rfl⟩
        · refine ⟨rfl,fun hne => absurd hne hset,fun _ => ?_⟩
          rintro _ ⟨rfl⟩ hfind
          exact absurd hfind hstop
      | _ => exact ⟨rfl,fun hne => absurd hne hset,fun _ _ hmsg => by cases hmsg⟩
  exact hwp

/-- `update_goals` cleans up after a failure exactly when there is nothing to unlink. -/
theorem cleansUp_iff (E : Env) (c : Core) :
    CleansUp E c ↔ ∀ e, (protectedRun E c).1 = .raise e →
      NothingToUnlink (protectedRun E c).2.now e := by
  constructor
  · intro hclean e he
    obtain ⟨hstate,hset,_⟩ := updateGoals_of_raise he
    by_cases hempty : (protectedRun E c).2.now.deleteOnError = ∅
    · exact .inl hempty
    refine .inr ⟨?_,?_⟩
    · intro f hf
      by_contra hexists
      have hgone := hclean.deleted e he f hf (by simpa using hexists)
      rw [hstate] at hgone
      exact hexists (by simp [FileSystem.exists,hgone])
    · rintro msg rfl hsays
      have hpassed := hclean.passedOn msg he hsays
      rw [hset hempty] at hpassed
      cases hpassed
      exact absurd hsays (by decide)
  · intro hnothing
    refine ⟨?_,?_,?_⟩
    · intro e he f hf hexists
      rcases hnothing e he with hempty | ⟨hnone,_⟩
      · rw [hempty] at hf
        cases hf
      · rw [hnone f hf] at hexists
        cases hexists
    · intro msg he hsays
      obtain ⟨_,_,hpass⟩ := updateGoals_of_raise he
      refine hpass ?_ msg rfl (findsStop_of_saysStop hsays)
      exact (hnothing _ he).resolve_right fun h => h.2 msg rfl hsays
    · intro u hu f _
      rw [updateGoals_of_ret hu]

/-- The command of `x` records its file in `make.delete_on_error`, writes it and fails. -/
def halfWritten : Env := { Env.plain with
  resume := fun _ _ _ _ => ⟨fun fs => Function.update fs "x" (.file 0),{"x"},.raised (.str "boom")⟩ }

def halfWrittenStart : Core :=
  { (newNamed none "x" (Function.update noFields "command" (.fn (.user 0)))
      (Core.init fun _ => .absent)).2 with goals := {"x"} }

theorem unfinished_file_kept : ¬CleansUp halfWritten halfWrittenStart := by
  intro hclean
  have hraise : (protectedRun halfWritten halfWrittenStart).1 = .raise (.str "Stop.") := by
    decide +kernel
  have hpassed := hclean.passedOn "Stop." hraise (by decide)
  have hmasked : (updateGoals halfWritten ⟨halfWrittenStart,[]⟩).1 =
      .raise (.str "attempt to call field 'exist' (a nil value)") := by decide +kernel
  rw [hmasked] at hpassed
  exact absurd hpassed (by decide)

end
end Presto

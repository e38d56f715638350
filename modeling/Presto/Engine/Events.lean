import Presto.Engine

/-! The events that the functions of the engine can leave behind. -/
namespace Presto
open Program Traced

/-- A job is started. -/
def Event.Starts : Event → Prop
  | .start _ _ => True
  | _ => False

/-- A target has failed, or `bring_up_to_date` has raised. -/
def Event.Fails : Event → Prop
  | .failed _ => True
  | .marked _ => True
  | _ => False

section
variable {P : Event → Prop}

theorem emits_quietly {α : Type} (m : Lua α) : Moves (Emits P) (quietly m) := moves_traced m

theorem emits_core : Moves (Emits P) core := moves_gets _

theorem emits_raiseError {α : Type} (msg : String) : Moves (Emits P) (raiseError (α := α) msg) :=
  emits_quietly _

theorem emits_setField (o : ObjId) (key : String) (v : Value) : Moves (Emits P) (setField o key v) :=
  emits_quietly _

theorem emits_concatText (v : Value) : Moves (Emits P) (concatText v) := by
  unfold concatText
  split
  · exact moves_pure _
  · exact moves_pure _
  · exact emits_raiseError _

theorem emits_lessThan (a b : Value) : Moves (Emits P) (lessThan a b) := by
  unfold lessThan
  split
  · exact moves_pure _
  · exact moves_pure _
  · exact emits_raiseError _

theorem emits_markError (h : ∀ o, P (.marked o)) (o : ObjId) : Moves (Emits P) (markError o) :=
  moves_bind (emits_setField o _ _) fun _ => moves_emit (h o)

theorem emits_ensureDepsNewer (self : ObjId) : Moves (Emits P) (ensureDepsNewer self) := by
  refine moves_bind emits_core fun c => ?_
  exact moves_ite (moves_pure _) (emits_setField self _ _)

theorem emits_markNewer (self : ObjId) (name : String) : Moves (Emits P) (markNewer self name) := by
  refine moves_bind emits_core fun c => ?_
  split
  · exact emits_setField _ _ _
  · exact emits_setField _ _ _
  · exact emits_quietly _
  · exact moves_pure _
  · exact moves_pure _
  · exact emits_raiseError _

theorem emits_prune (self : ObjId) (name : String) : Moves (Emits P) (prune self name) :=
  moves_bind (emits_quietly _) fun _ => emits_setField _ _ _

theorem emits_compareDep (E : Env) (self dep : ObjId) (name : String) (b : Pass) :
    Moves (Emits P) (compareDep E self dep name b) := by
  refine moves_bind (emits_quietly _) fun s => moves_bind (emits_quietly _) fun t => ?_
  refine moves_bind (emits_lessThan s t) fun older => ?_
  exact moves_ite (moves_bind (emits_markNewer self name) fun _ => moves_pure _) (moves_pure _)

theorem emits_missing (E : Env) (self : ObjId) : Moves (Emits P) (missing E self) :=
  moves_ite (moves_pure _) (moves_bind (emits_quietly _) fun _ => moves_pure _)

theorem emits_visitStart (E : Env) (self : ObjId) : Moves (Emits P) (visitStart E self) :=
  moves_bind (emits_ensureDepsNewer self) fun _ => moves_bind (emits_missing E self) fun _ =>
    moves_bind (emits_quietly _) fun _ => moves_bind (emits_quietly _) fun _ => moves_pure _

theorem emits_unbuildable (E : Env) (self : ObjId) : Moves (Emits P) (unbuildable E self) :=
  moves_ite (moves_bind (emits_quietly _) fun _ => moves_pure _) (moves_pure _)

theorem emits_finishTarget (name : Value) {err : Option Value} (h : err ≠ none → ∀ o, P (.marked o)) :
    Moves (Emits P) (finishTarget name err) := by
  refine moves_bind (emits_quietly _) fun v => moves_bind (emits_quietly _) fun o => ?_
  refine moves_bind (emits_setField o _ _) fun _ => ?_
  cases err with
  | none => exact moves_pure _
  | some e =>
    refine moves_bind (emits_quietly _) fun v => moves_bind (emits_quietly _) fun o => ?_
    refine moves_bind (emits_setField o _ _) fun _ => moves_bind (emits_quietly _) fun v => ?_
    refine moves_bind (emits_quietly _) fun p => moves_bind (emits_setField p _ _) fun _ => ?_
    exact moves_emit (h (by simp) o)

theorem emits_finishJob (i : ℕ) (j : Job) {err : Option Value} (hi : P (.processed i))
    (h : err ≠ none → ∀ o, P (.marked o)) : Moves (Emits P) (finishJob i j err) := by
  refine moves_bind (emits_quietly _) fun _ => ?_
  exact moves_bind (emits_finishTarget _ h) fun _ => moves_emit hi

section Printing
variable (hp : ∀ v, P (.printed v))
include hp

theorem emits_message (v : Value) : Moves (Emits P) (message v) := by
  unfold message
  split
  · exact moves_emit (hp _)
  · exact moves_emit (hp _)
  · exact emits_raiseError _

theorem emits_messageIf (v : Value) : Moves (Emits P) (messageIf v) :=
  moves_ite (emits_message hp v) (moves_pure _)

end Printing

section Dispatch
variable (E : Env) (hP : ∀ e, ¬e.Starts → P e)
include hP

theorem emits_procWait (handles : List Value) : Moves (Emits P) (procWait handles) :=
  moves_ite (moves_emit (hP _ id)) (emits_raiseError _)

theorem emits_reportJob (j : Job) (v : Value) : Moves (Emits P) (reportJob j v) := by
  have hprint : ∀ v, P (.printed v) := fun v => hP _ id
  refine moves_bind (emits_concatText _) fun _ => moves_bind (emits_message hprint _) fun _ => ?_
  exact emits_messageIf hprint _

omit hP in
theorem emits_resumeJob (i : ℕ) (j : Job) : Moves (Emits P) (resumeJob E i j) :=
  moves_ite (emits_quietly _) (moves_pure _)

theorem emits_dispatchJob {exit : Engine Unit} (hexit : Moves (Emits P) exit) (i : ℕ)
    (waiting : List Value) : Moves (Emits P) (dispatchJob E exit i waiting) := by
  refine moves_bind emits_core fun c => ?_
  cases c.running.lookup i with
  | none => exact moves_pure _
  | some j =>
    refine moves_bind (moves_emit (hP _ id)) fun _ => ?_
    refine moves_bind (emits_resumeJob E i j) fun signal => ?_
    cases signal with
    | finished => exact moves_bind (emits_finishJob i j (hP _ id) fun _ _ => hP _ id) fun _ => moves_pure _
    | raised v =>
      refine moves_bind (emits_finishJob i j (hP _ id) fun _ _ => hP _ id) fun _ => ?_
      refine moves_bind (emits_reportJob hP j v) fun _ => ?_
      exact moves_bind hexit fun _ => moves_pure _
    | yielded v =>
      refine moves_bind (emits_quietly _) fun _ => ?_
      exact moves_bind (moves_emit (hP _ id)) fun _ => moves_pure _

/-- The dispatcher and `make.exit` start nothing. -/
theorem emits_dispatch_drain_exit (n : ℕ) : Moves (Emits P) (dispatch E n) ∧
    Moves (Emits P) (drain E n) ∧ Moves (Emits P) (makeExit E n) := by
  induction n with
  | zero => exact ⟨moves_diverge,moves_diverge,moves_diverge⟩
  | succ n ih =>
    obtain ⟨hdispatch,hdrain,hexit⟩ := ih
    have hprint : ∀ v, P (.printed v) := fun v => hP _ id
    refine ⟨?_,?_,?_⟩
    · unfold dispatch
      refine moves_bind emits_core fun c => moves_bind (emits_quietly _) fun order => ?_
      refine moves_bind (moves_forEach (emits_dispatchJob E hP hexit) _ _) fun x => ?_
      rcases x with waiting | e
      · refine moves_bind emits_core fun c' => moves_ite (moves_pure _) (moves_ite (moves_pure _) ?_)
        exact moves_bind (emits_procWait hP _) fun _ => hdispatch
      · cases e
    · unfold drain
      refine moves_bind emits_core fun c => moves_ite ?_ (moves_pure _)
      exact moves_bind (moves_attempt hdispatch) fun _ => hdrain
    · unfold makeExit
      refine moves_bind emits_core fun c => ?_
      refine moves_ite (emits_quietly _) (moves_ite ?_ (emits_raiseError _))
      refine moves_bind (emits_message hprint _) fun _ => moves_bind hdrain fun _ => ?_
      exact moves_bind (emits_message hprint _) fun _ => emits_raiseError _

end Dispatch
end

section
variable {E : Env} {P : Event → Prop} (hP : ∀ e, ¬e.Starts → P e)
include hP

theorem emits_failDep (self dep : ObjId) (name : String) (b : Pass) :
    Moves (Emits P) (failDep E self dep name b) := by
  have hprint : ∀ v, P (.printed v) := fun v => hP _ id
  refine moves_bind emits_core fun c => moves_bind (emits_concatText _) fun depName => ?_
  refine moves_bind (emits_message hprint _) fun _ => moves_bind (emits_messageIf hprint _) fun _ => ?_
  apply moves_ite
  · refine moves_bind (emits_prune self name) fun _ => ?_
    exact moves_bind (emits_setField self _ _) fun _ => moves_pure _
  · refine moves_bind (emits_markError (fun o => hP _ id) self) fun _ => ?_
    exact moves_bind emits_core fun c => moves_pure _

theorem emits_useDep (self dep : ObjId) (name : String) (b : Pass) (status : Value) :
    Moves (Emits P) (useDep E self dep name b status) := by
  refine moves_ite ?_ (moves_ite (emits_compareDep E self dep name b)
    (moves_ite (emits_failDep hP self dep name b) (moves_ite ?_ ?_)))
  · exact moves_bind (emits_markNewer self name) fun _ => moves_pure _
  · exact moves_bind emits_core fun c => moves_ite (moves_pure _) (moves_pure _)
  · exact moves_bind (emits_concatText _) fun text => emits_raiseError _

theorem emits_noRule (self : ObjId) : Moves (Emits P) (noRule self) := by
  refine moves_bind (emits_markError (fun o => hP _ id) self) fun _ => ?_
  refine moves_bind emits_core fun c => moves_bind (emits_concatText _) fun name => ?_
  exact moves_bind (emits_setField self _ _) fun _ => emits_raiseError _

theorem emits_recordFirst (self : ObjId) (i : ℕ) (j : Job) (signal : Signal) :
    Moves (Emits P) (recordFirst self i j signal) :=
  moves_bind (emits_quietly _) fun _ => moves_ite (moves_emit (hP _ id)) (moves_pure _)

/-- What follows the start of a job. -/
theorem emits_startJob (self : ObjId) (i : ℕ) (f : Fn) (name : Value) : Moves (Emits P) (startJob E self i f name) := by
  refine moves_bind (moves_emit (hP _ id)) fun _ => moves_bind (emits_quietly _) fun signal => ?_
  refine moves_bind (emits_recordFirst hP self i _ signal) fun _ => ?_
  exact moves_bind (moves_emit (hP _ id)) fun _ => moves_bind emits_core fun c => moves_pure _

omit hP in
theorem emits_defaultGoals : Moves (Emits P) defaultGoals := by
  refine moves_bind emits_core fun c => moves_ite (moves_pure _) (moves_ite (emits_raiseError _) ?_)
  refine moves_bind (emits_quietly _) fun o => ?_
  split
  · exact emits_quietly _
  · exact emits_raiseError _

omit hP in
theorem emits_goalStatus (goal : ObjId) (r : Except Value Value) : Moves (Emits P) (goalStatus goal r) := by
  cases r with
  | ok s => exact moves_pure _
  | error e => exact moves_bind (emits_setField goal _ _) fun _ => moves_pure _

theorem emits_reportGoal (goal : ObjId) (name : String) (status : Value) :
    Moves (Emits P) (reportGoal E goal name status) := by
  have hprint : ∀ v, P (.printed v) := fun v => hP _ id
  refine moves_ite (moves_pure _) (moves_ite ?_ (moves_ite ?_ ?_))
  · refine moves_bind (moves_bind (moves_ite (moves_pure _) (emits_message hprint _)) fun _ => ?_) fun _ => ?_
    · exact moves_bind emits_core fun c => emits_messageIf hprint _
    · exact moves_bind (emits_dispatch_drain_exit E hP E.fuel).2.2 fun _ => emits_quietly _
  · exact moves_bind (emits_message hprint _) fun _ => emits_quietly _
  · exact moves_bind (emits_message hprint _) fun _ => emits_quietly _

end

end Presto

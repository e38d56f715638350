import Presto.Engine.Events

/-! Without `-k` a failure ends the run: no job is started after it, and `update_goals` does
not return. -/
namespace Presto
open Program Traced

/-- Nothing has failed so far. -/
def Clean (w : World) : Prop := w.Always fun e _ => ¬e.Fails

/-- No job was started after a failure. -/
def HaltsAtFailure (w : World) : Prop :=
  w.trace.Pairwise fun new old => old.1.Fails → ¬new.1.Starts

/-- The state before a failure. -/
def Going (w : World) : Prop := HaltsAtFailure w ∧ Clean w

/-- `bring_up_to_date` went well, or it raises or answers `error`. -/
def Ended (o : Outcome Value Value) (w : World) : Prop :=
  HaltsAtFailure w ∧ (Clean w ∨ ∀ v, o = .ret v → v = Status.error.toValue)

/-- Events that neither start a job nor are a failure. -/
def Event.Neutral (e : Event) : Prop := ¬e.Starts ∧ ¬e.Fails

theorem halts_of_emits {w w' : World} (h : Emits (fun e => ¬e.Starts) w w') (hw : HaltsAtFailure w) :
    HaltsAtFailure w' := h.pairwise hw fun _ _ hx _ => hx

theorem going_of_emits {w w' : World} (h : Emits Event.Neutral w w') (hw : Going w) : Going w' :=
  ⟨halts_of_emits (h.mono fun _ he => he.1) hw.1,h.always hw.2 fun _ _ he => he.2⟩

section
variable {α : Type} {m : Engine α}

theorem keeps_halts (h : Moves (Emits fun e => ¬e.Starts) m) : Keeps HaltsAtFailure m :=
  fun w hw => halts_of_emits (h w) hw

theorem keeps_going (h : Moves (Emits Event.Neutral) m) : Keeps Going m :=
  fun w hw => going_of_emits (h w) hw

theorem going_quietly (m : Lua α) : Keeps Going (quietly m) := keeps_going (emits_quietly m)

end

section
variable {E : Env} {w : World}

theorem halts_message (v : Value) : Keeps HaltsAtFailure (message v) :=
  keeps_halts (emits_message (fun _ => id) v)

theorem going_message (v : Value) : Keeps Going (message v) :=
  keeps_going (emits_message (fun _ => ⟨id,id⟩) v)

/-- Starting a job at a time when nothing has failed. -/
theorem going_start (o : ObjId) (i : ℕ) : Keeps Going (Prog.emit (.start o i) : Engine Unit) := by
  rintro w ⟨hw,hc⟩
  refine ⟨List.pairwise_cons.mpr ⟨?_,hw⟩,?_⟩
  · exact fun x hx hfail => absurd hfail (hc x hx)
  · intro x hx
    rcases List.mem_cons.mp hx with rfl | hx
    · exact id
    · exact hc x hx

/-- The status of a target that has just been set. -/
theorem attr_status_rawset (c : Core) (o : ObjId) (s : Status) :
    (c.rawset o "status" s.toValue).attr o "status" = s.toValue := by
  have hraw : (c.rawset o "status" s.toValue).rawget o "status" = s.toValue := by simp
  rw [Core.attr_eq_rawget,hraw]
  rw [hraw]
  cases s <;> exact Value.noConfusion

theorem attr_status_recordStart (c : Core) (o : ObjId) (i : ℕ) (j : Job) (signal : Signal) :
    (c.recordStart o i j signal).attr o "status" = signal.status.toValue := by
  cases signal with
  | raised v =>
    have hraw : (c.recordStart o i j (.raised v)).rawget o "status" = Status.error.toValue := by
      simp [Core.recordStart,Signal.status]
    rw [Core.attr_eq_rawget (by simp [hraw,Status.toValue]),hraw]
    rfl
  | yielded v => exact attr_status_rawset _ o .running
  | finished => exact attr_status_rawset c o .updated

/-- Marking a target and answering its status. -/
theorem wp_markError {β : Type} {f : Value → β} {Q : Outcome Value β → World → Prop} (o : ObjId)
    (hw : HaltsAtFailure w)
    (hQ : ∀ w', HaltsAtFailure w' → Q (.ret (f Status.error.toValue)) w') : wp (do
      markError o
      let c ← core
      pure (f (c.attr o "status"))) Q w := by
  have h := keeps_halts (emits_markError (fun _ => id) o) w hw
  have hrun := hQ _ h
  rwa [← attr_status_rawset w.now o .error] at hrun

theorem ended_of_going {o : Outcome Value Value} (hw : Going w) : Ended o w := ⟨hw.1,.inl hw.2⟩

theorem neutral_resuming (i : ℕ) : (Event.resuming i).Neutral := ⟨id,id⟩
theorem neutral_processed (i : ℕ) : (Event.processed i).Neutral := ⟨id,id⟩

theorem startJob_ended (self : ObjId) (i : ℕ) (f : Fn) (name : Value) (hw : Going w) :
    wp (startJob E self i f name) Ended w := by
  unfold startJob
  apply (keeps_going (moves_emit (neutral_resuming i))).wp_bind hw _ fun _ _ _ => ended_of_going
  intro _ w hw
  apply (going_quietly _).wp_bind hw _ fun _ _ _ => ended_of_going
  intro signal w hw
  unfold recordFirst
  rw [wp_bind_assoc,wp_bind_modify_quietly]
  by_cases hs : signal.status = .error
  · simp only [hs,if_true]
    rw [wp_bind_emit,wp_bind_emit,wp_bind_core]
    refine ⟨?_,.inr ?_⟩
    · exact halts_of_emits (w := w) ⟨[(.processed i,_),(.marked self,_)],rfl,by simp [Event.Starts]⟩ hw.1
    · intro v hv
      rw [← Outcome.ret.inj hv,attr_status_recordStart,hs]
  · simp only [hs,if_false]
    exact ended_of_going (going_of_emits (w := w)
      ⟨[(.processed i,_)],rfl,by simp [Event.Neutral,Event.Starts,Event.Fails]⟩ hw)

theorem jobsStart_ended (self : ObjId) (hw : Going w) : wp (jobsStart E self) Ended w := by
  unfold jobsStart
  apply (going_quietly _).wp_bind hw _ fun _ _ _ => ended_of_going
  intro _ w hw
  rw [wp_bind_core]
  apply (going_start self _).wp_bind hw _ fun _ _ _ => ended_of_going
  intro _ w' hw
  split
  · rw [wp_ite]
    split_ifs
    · exact ended_of_going hw
    · exact startJob_ended self _ _ _ hw
  · exact ended_of_going hw

theorem noRule_ended (self : ObjId) (hw : Going w) : wp (noRule self) Ended w := by
  have hm := emits_markError (P := fun e => ¬e.Starts) (fun _ => id) self
  unfold noRule
  apply (keeps_halts hm).wp_bind hw.1
  · intro _ w hw
    rw [wp_bind_core]
    apply (keeps_halts (emits_concatText _)).wp_bind hw
    · intro name w hw
      rw [wp_bind_setField,wp_raiseError]
      exact ⟨hw,.inr (by simp)⟩
    · exact fun o w ho hw => ⟨hw,.inr fun v hv => absurd hv (ho v)⟩
  · exact fun o w ho hw => ⟨hw,.inr fun v hv => absurd hv (ho v)⟩

theorem finishTargetUpdate_ended (self : ObjId) (b : Pass) (hw : Going w) :
    wp (finishTargetUpdate E self b) Ended w := by
  unfold finishTargetUpdate
  rw [wp_bind_core,wp_ite,wp_ite,wp_ite,wp_ite,wp_ite]
  split_ifs
  · exact ended_of_going hw
  · exact wp_markError (f := id) self hw.1 fun w hw => ⟨hw,.inr fun v hv => (Outcome.ret.inj hv).symm⟩
  · exact ended_of_going hw
  · exact jobsStart_ended self hw
  · apply (keeps_going (emits_unbuildable E self)).wp_bind hw _ fun _ _ _ => ended_of_going
    intro b w hw
    cases b
    · exact ended_of_going hw
    · exact noRule_ended self hw
  · exact ended_of_going hw

/-- What a protected call of `bring_up_to_date` leaves behind. -/
def VisitEnded (o : Outcome Value (Except Value Value)) (w : World) : Prop :=
  HaltsAtFailure w ∧ (Clean w ∨ ∀ r, o = .ret r → depStatus r = Status.error.toValue)

theorem visit_ended {bring : ObjId → Engine Value} (hbring : ∀ o w, Going w → wp (bring o) Ended w)
    (o : ObjId) (hw : Going w) : wp (visit E bring o) VisitEnded w := by
  have hcall : wp (callBring E bring o) Ended w := by
    unfold callBring
    rw [wp_bind_core]
    split
    · rw [wp_ite]
      split_ifs
      · exact hbring o w hw
      · exact ended_of_going hw
    · exact ended_of_going hw
  apply wp_visit E hcall
  · rintro v w ⟨hw,h⟩
    exact ⟨hw,h.imp_right fun h r hr => by cases hr; exact h v rfl⟩
  · rintro e w ⟨hw,_⟩
    exact ⟨List.pairwise_cons.mpr ⟨fun _ _ _ => id,hw⟩,.inr fun r hr => by cases hr; rfl⟩
  · rintro w ⟨hw,_⟩
    exact ⟨hw,.inr fun r hr => by cases hr⟩

/-- How one dependency is dealt with. -/
def StepEnded : Outcome Value (Step Pass Value) → World → Prop
  | .ret (.leave v),w => Ended (.ret v) w
  | .ret _,w => Going w
  | _,w => HaltsAtFailure w

theorem stepEnded_of_halts {o : Outcome Value (Step Pass Value)} (ho : ∀ x, o ≠ .ret x)
    (hw : HaltsAtFailure w) : StepEnded o w := by
  cases o with
  | ret x => exact absurd rfl (ho x)
  | raise e => exact hw
  | diverge => exact hw

theorem failDep_ended (hk : E.flags.keepGoing = false) (self dep : ObjId) (name : String) (b : Pass)
    (hw : HaltsAtFailure w) : wp (failDep E self dep name b) StepEnded w := by
  have hend : ∀ (o : Outcome Value (Step Pass Value)) w, (∀ x, o ≠ .ret x) → HaltsAtFailure w →
      StepEnded o w := fun o w => stepEnded_of_halts
  unfold failDep
  rw [wp_bind_core]
  apply (keeps_halts (emits_concatText _)).wp_bind hw _ hend
  intro depName w hw
  apply (halts_message _).wp_bind hw _ hend
  intro _ w hw
  apply (keeps_halts (emits_messageIf (fun _ => id) _)).wp_bind hw _ hend
  intro _ w hw
  rw [if_neg (by simp [hk])]
  exact wp_markError self hw fun w hw => ⟨hw,.inr fun v hv => (Outcome.ret.inj hv).symm⟩

theorem compareDep_ended (self dep : ObjId) (name : String) (b : Pass) (hw : Going w) :
    wp (compareDep E self dep name b) StepEnded w := by
  have hend : ∀ (o : Outcome Value (Step Pass Value)) w, (∀ x, o ≠ .ret x) → Going w →
      StepEnded o w := fun o w ho hw => stepEnded_of_halts ho hw.1
  unfold compareDep
  apply (going_quietly _).wp_bind hw _ hend
  intro s w hw
  apply (going_quietly _).wp_bind hw _ hend
  intro t w hw
  apply (keeps_going (emits_lessThan s t)).wp_bind hw _ hend
  intro older w hw
  cases older
  · exact hw
  · exact (keeps_going (emits_markNewer self name)).wp_bind hw (fun _ w hw => hw) hend

theorem useDep_ended (hk : E.flags.keepGoing = false) (self dep : ObjId) (name : String) (b : Pass)
    {status : Value} (hw : HaltsAtFailure w) (hclean : Clean w ∨ status = Status.error.toValue) :
    wp (useDep E self dep name b status) StepEnded w := by
  have hend : ∀ (o : Outcome Value (Step Pass Value)) w, (∀ x, o ≠ .ret x) → Going w →
      StepEnded o w := fun o w ho hw => stepEnded_of_halts ho hw.1
  by_cases hs : status = Status.error.toValue
  · subst hs
    exact failDep_ended hk self dep name b hw
  · have hw : Going w := ⟨hw,hclean.resolve_right hs⟩
    unfold useDep
    rw [wp_ite,wp_ite,wp_ite,wp_ite]
    split_ifs
    · exact (keeps_going (emits_markNewer self name)).wp_bind hw (fun _ w hw => hw) hend
    · exact compareDep_ended self dep name b hw
    · rw [wp_bind_core,wp_ite]
      split_ifs <;> exact hw
    · exact (keeps_going (emits_concatText _)).wp_bind hw (fun _ w hw => hw.1) hend

theorem depStep_ended (hk : E.flags.keepGoing = false) {bring : ObjId → Engine Value}
    (hbring : ∀ o w, Going w → wp (bring o) Ended w) (self : ObjId) (name : String) (b : Pass)
    (hw : Going w) : wp (depStep E bring self name b) StepEnded w := by
  have hend : ∀ (o : Outcome Value (Step Pass Value)) w, (∀ x, o ≠ .ret x) → Going w →
      StepEnded o w := fun o w ho hw => stepEnded_of_halts ho hw.1
  unfold depStep
  apply (going_quietly _).wp_bind hw _ hend
  intro v w hw
  apply (going_quietly _).wp_bind hw _ hend
  intro dep w hw
  apply wp_bind_of (visit_ended hbring dep hw)
  · rintro result w ⟨hw,hclean⟩
    exact useDep_ended hk self dep name b hw (hclean.imp_right fun h => h result rfl)
  · exact fun e w h => h.1
  · exact fun w h => h.1

/-- Every call of `bring_up_to_date`, at any depth. -/
theorem bringUpToDate_ended (hk : E.flags.keepGoing = false) (n : ℕ) (self : ObjId) (hw : Going w) :
    wp (bringUpToDate E n self) Ended w := by
  induction n generalizing self w with
  | zero => exact ended_of_going hw
  | succ n ih =>
    apply wp_bringUpToDate E (fun _ _ w => Going w) fun _ w => Going w
    · exact fun _ => ended_of_going hw
    · intro _
      apply wp_mono ((keeps_going (emits_visitStart E self)).wp hw)
      rintro (_ | _ | _) w hw
      · exact hw
      · exact ended_of_going hw
      · exact ended_of_going hw
    · intro name _ b w hw
      apply wp_mono (depStep_ended hk (fun o w hw => ih o hw) self name b hw)
      rintro ((_ | _ | _) | _ | _) w h
      · exact h
      · exact h
      · exact h
      · exact ⟨h,.inr fun v hv => by cases hv⟩
      · exact ⟨h,.inr fun v hv => by cases hv⟩
    · exact fun _ _ h => h
    · exact fun b w hw => finishTargetUpdate_ended self b hw

/-- What returns has not failed. -/
def Returned {α : Type} (o : Outcome Value α) (w : World) : Prop :=
  HaltsAtFailure w ∧ ((∃ a, o = .ret a) → Clean w)

theorem returned_of_going {α : Type} {o : Outcome Value α} (hw : Going w) : Returned o w :=
  ⟨hw.1,fun _ => hw.2⟩

theorem returned_of_halts {α : Type} {o : Outcome Value α} (ho : ∀ a, o ≠ .ret a)
    (hw : HaltsAtFailure w) : Returned o w := ⟨hw,fun ⟨a,ha⟩ => absurd ha (ho a)⟩

/-- The sequencing rule for `Returned`. -/
theorem Returned.bind {α β : Type} {m : Engine α} {f : α → Engine β} (hm : wp m Returned w)
    (hf : ∀ a w, Going w → wp (f a) Returned w) : wp (m >>= f) Returned w := by
  apply wp_bind_of hm
  · exact fun a w h => hf a w ⟨h.1,h.2 ⟨a,rfl⟩⟩
  · exact fun e w h => ⟨h.1,fun ⟨a,ha⟩ => by cases ha⟩
  · exact fun w h => ⟨h.1,fun ⟨a,ha⟩ => by cases ha⟩

theorem returned_of_keeps {α : Type} {m : Engine α} (hm : Keeps Going m) (hw : Going w) :
    wp m Returned w := returned_of_going (hm w hw)

/-- Without `-k` nothing comes back from `make.exit`. -/
theorem makeExit_returned (hk : E.flags.keepGoing = false) (n : ℕ) (hw : HaltsAtFailure w) :
    wp (makeExit E n) Returned w := by
  have hend : ∀ (o : Outcome Value Unit) w, (∀ a, o ≠ .ret a) → HaltsAtFailure w → Returned o w :=
    fun o w => returned_of_halts
  cases n with
  | zero => exact returned_of_halts (by simp [makeExit,Prog.diverge]) hw
  | succ n =>
    unfold makeExit
    rw [wp_bind_core,if_neg (by simp [hk]),wp_ite,wp_raiseError]
    split_ifs
    · apply (halts_message _).wp_bind hw _ hend
      intro _ w hw
      apply (keeps_halts (emits_dispatch_drain_exit E (fun _ => id) n).2.1).wp_bind hw _ hend
      intro _ w hw
      exact (halts_message _).wp_bind hw (fun _ w hw => returned_of_halts (by simp) hw) hend
    · exact returned_of_halts (by simp) hw

theorem dispatchJob_returned {exit : Engine Unit} (hexit : ∀ w, HaltsAtFailure w → wp exit Returned w)
    (i : ℕ) (waiting : List Value) (hw : Going w) :
    wp (dispatchJob E exit i waiting) Returned w := by
  unfold dispatchJob
  rw [wp_bind_core]
  cases w.now.running.lookup i with
  | none => exact returned_of_going hw
  | some j =>
    apply Returned.bind (returned_of_keeps (keeps_going (moves_emit (neutral_resuming i))) hw)
    intro _ w hw
    apply Returned.bind (returned_of_keeps (keeps_going (emits_resumeJob E i j)) hw)
    intro signal w hw
    cases signal with
    | finished =>
      have hfinish : Keeps Going (finishJob i j none) :=
        keeps_going (emits_finishJob i j (neutral_processed i) (by simp))
      exact Returned.bind (returned_of_keeps hfinish hw) fun _ w hw => returned_of_going hw
    | raised v =>
      have hend : ∀ (o : Outcome Value (Step (List Value) Empty)) w, (∀ a, o ≠ .ret a) →
          HaltsAtFailure w → Returned o w := fun o w => returned_of_halts
      apply (keeps_halts (emits_finishJob i j id fun _ _ => id)).wp_bind hw.1 _ hend
      intro _ w hw
      apply (keeps_halts (emits_reportJob (fun _ => id) j v)).wp_bind hw _ hend
      intro _ w hw
      exact Returned.bind (hexit w hw) fun _ w hw => returned_of_going hw
    | yielded v =>
      apply Returned.bind (returned_of_keeps (going_quietly _) hw)
      intro _ w hw
      exact Returned.bind (returned_of_keeps (keeps_going (moves_emit (neutral_processed i))) hw)
        fun _ w hw => returned_of_going hw

theorem dispatch_returned (hk : E.flags.keepGoing = false) (n : ℕ) (hw : Going w) :
    wp (dispatch E n) Returned w := by
  induction n generalizing w with
  | zero => exact returned_of_going hw
  | succ n ih =>
    unfold dispatch
    rw [wp_bind_core]
    apply Returned.bind (returned_of_keeps (going_quietly _) hw)
    intro order w hw
    have hloop : wp (forEach (dispatchJob E (makeExit E n)) order []) Returned w := by
      apply wp_forEach fun _ _ w => Going w
      · intro i _ waiting w hw
        apply wp_mono (dispatchJob_returned (fun w => makeExit_returned hk n) i waiting hw)
        rintro (x | e | _) w h
        · have hg : Going w := ⟨h.1,h.2 ⟨x,rfl⟩⟩
          rcases x with waiting | waiting | e
          · exact hg
          · exact returned_of_going hg
          · cases e
        · exact returned_of_halts (by simp) h.1
        · exact returned_of_halts (by simp) h.1
      · exact fun _ _ h => returned_of_going h
      · exact hw
    apply Returned.bind hloop
    rintro (waiting | e) w hw
    · rw [wp_bind_core,wp_ite,wp_ite]
      split_ifs
      · exact returned_of_going hw
      · exact returned_of_going hw
      · have hwait : Keeps Going (procWait waiting) := keeps_going (moves_ite
          (moves_emit (show (Event.wait waiting).Neutral from ⟨id,id⟩)) (emits_raiseError _))
        exact Returned.bind (returned_of_keeps hwait hw) fun _ w hw => ih hw
    · cases e

/-- A goal that has failed ends the run. -/
theorem reportGoal_returned (hk : E.flags.keepGoing = false) (goal : ObjId) (name : String)
    {status : Value} (hw : HaltsAtFailure w) (hclean : Clean w ∨ status = Status.error.toValue) :
    wp (reportGoal E goal name status) Returned w := by
  have hmsg : ∀ v, Keeps Going (message v) := going_message
  unfold reportGoal
  dsimp only
  rw [wp_ite,wp_ite,wp_ite]
  by_cases hs : status = Status.error.toValue
  · subst hs
    rw [if_neg (by decide),if_pos rfl]
    have hend : ∀ (o : Outcome Value Unit) w, (∀ a, o ≠ .ret a) → HaltsAtFailure w →
        Returned o w := fun o w => returned_of_halts
    have hreport : Moves (Emits fun e => ¬e.Starts) (reportFailure E goal name) := by
      have hprint : ∀ v, Moves (Emits fun e => ¬e.Starts) (message v) := emits_message fun _ => id
      refine moves_bind (moves_ite (moves_pure _) (hprint _)) fun _ => ?_
      exact moves_bind emits_core fun _ => moves_ite (hprint _) (moves_pure _)
    apply (keeps_halts hreport).wp_bind hw _ hend
    intro _ w hw
    exact Returned.bind (makeExit_returned hk _ hw) fun _ w hw => returned_of_keeps (going_quietly _) hw
  · have hw : Going w := ⟨hw,hclean.resolve_right hs⟩
    split_ifs
    · exact returned_of_going hw
    · exact Returned.bind (returned_of_keeps (hmsg _) hw) fun _ w hw =>
        returned_of_keeps (going_quietly _) hw
    · exact Returned.bind (returned_of_keeps (hmsg _) hw) fun _ w hw =>
        returned_of_keeps (going_quietly _) hw

theorem goalStep_returned (hk : E.flags.keepGoing = false) (name : String) (k : ℕ) (hw : Going w) :
    wp (goalStep E name k) Returned w := by
  unfold goalStep
  apply Returned.bind (returned_of_keeps (going_quietly _) hw)
  intro v w hw
  apply Returned.bind (returned_of_keeps (going_quietly _) hw)
  intro goal w hw
  apply wp_bind_of (visit_ended (fun o w hw => bringUpToDate_ended hk E.stack o hw) goal hw)
  · rintro result w ⟨hw,hclean⟩
    have hstatus : wp (goalStatus goal result) (fun o w => HaltsAtFailure w ∧
        (Clean w ∨ ∀ s, o = .ret s → s = Status.error.toValue)) w := by
      cases result with
      | ok s => exact ⟨hw,hclean.imp_right fun h s' hs' => by cases hs'; exact h _ rfl⟩
      | error e =>
        unfold goalStatus
        rw [wp_bind_setField]
        exact ⟨hw,.inr fun s hs => (Outcome.ret.inj hs).symm⟩
    apply wp_bind_of hstatus
    · rintro s w ⟨hw,hclean⟩
      apply Returned.bind (reportGoal_returned hk goal name hw (hclean.imp_right fun h => h s rfl))
      intro _ w hw
      rw [wp_bind_core,wp_ite]
      split_ifs <;> exact returned_of_going hw
    · exact fun e w h => returned_of_halts (by simp) h.1
    · exact fun w h => returned_of_halts (by simp) h.1
  · exact fun e w h => returned_of_halts (by simp) h.1
  · exact fun w h => returned_of_halts (by simp) h.1

theorem goalPass_returned (hk : E.flags.keepGoing = false) (hw : Going w) :
    wp (goalPass E) Returned w := by
  unfold goalPass
  rw [wp_bind_core]
  apply Returned.bind (returned_of_keeps (going_quietly _) hw)
  intro order w' hw
  have hloop : wp (forEach (goalStep E) order 0) Returned w' := by
    apply wp_forEach fun _ _ w => Going w
    · intro name _ k w hw
      apply wp_mono (goalStep_returned hk name k hw)
      rintro (x | e | _) w h
      · have hg : Going w := ⟨h.1,h.2 ⟨x,rfl⟩⟩
        rcases x with k | k | e
        · exact hg
        · exact returned_of_going hg
        · cases e
      · exact returned_of_halts (by simp) h.1
      · exact returned_of_halts (by simp) h.1
    · exact fun _ _ h => returned_of_going h
    · exact hw
  apply Returned.bind hloop
  rintro (k | e) w'' hw
  · have hrun : wp (dispatchRunning E w.now.count) Returned w'' := by
      unfold dispatchRunning
      rw [wp_bind_core,wp_ite]
      split_ifs
      · exact dispatch_returned hk E.fuel hw
      · exact returned_of_going hw
    exact Returned.bind hrun fun _ w hw => returned_of_going hw
  · cases e

theorem updateGoalsP_returned (hk : E.flags.keepGoing = false) (hw : Going w) :
    wp (updateGoalsP E) Returned w := by
  unfold updateGoalsP
  apply Returned.bind (returned_of_keeps (keeps_going emits_defaultGoals) hw)
  intro _ w hw
  have hloop : wp (repeatWhile (goalPass E) E.fuel) Returned w := by
    apply wp_repeatWhile Going _ _ _ _ hw
    · intro w hw
      apply wp_mono (goalPass_returned hk hw)
      rintro (b | e | _) w h
      · have hg : Going w := ⟨h.1,h.2 ⟨b,rfl⟩⟩
        cases b
        · exact returned_of_going hg
        · exact hg
      · exact returned_of_halts (by simp) h.1
      · exact returned_of_halts (by simp) h.1
    · exact fun w hw => returned_of_going hw
  apply Returned.bind hloop
  intro _ w hw
  rw [wp_bind_core,wp_ite]
  split_ifs
  · exact Returned.bind (returned_of_keeps (going_message _) hw) fun _ w hw => returned_of_going hw
  · exact returned_of_going hw

theorem updateGoals_returned (hk : E.flags.keepGoing = false) (c : Core) : wp (updateGoals E) Returned ⟨c,[]⟩ := by
  have hw : Going ⟨c,[]⟩ := ⟨.nil,by rintro x hx; cases hx⟩
  unfold updateGoals
  apply Returned.bind (returned_of_keeps (going_quietly _) hw)
  intro _ w hw
  have hatt : wp (Prog.attempt (updateGoalsP E)) (fun o w => HaltsAtFailure w ∧
      (Clean w ∨ ∀ u, o ≠ .ret (.ok u))) w := by
    rw [wp_attempt]
    apply wp_mono (updateGoalsP_returned hk hw)
    rintro (u | e | _) w h
    · exact ⟨h.1,.inl (h.2 ⟨u,rfl⟩)⟩
    · exact ⟨h.1,.inr (by simp)⟩
    · exact ⟨h.1,.inr (by simp)⟩
  apply wp_bind_of hatt
  · rintro (e | u) w ⟨hw,h⟩
    · rw [wp_bind_core,wp_ite]
      split_ifs
      · exact returned_of_halts (by simp) hw
      · split
        · rw [wp_ite]
          split_ifs
          · exact returned_of_halts (by simp [quietly,Prog.traced]) hw
          · exact returned_of_halts (by simp) hw
        · exact returned_of_halts (by simp) hw
        · exact returned_of_halts (by simp) hw
    · exact returned_of_going ⟨hw,h.resolve_right fun hu => hu u rfl⟩
  · exact fun e w h => returned_of_halts (by simp) h.1
  · exact fun w h => returned_of_halts (by simp) h.1

end

end Presto

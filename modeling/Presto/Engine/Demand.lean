import Presto.Engine.Statuses

/-! Only what the goals lead to is asked for: the jobs of a run are those of wanted targets. -/
namespace Presto
open Program Traced

namespace Build
variable {E : Env} {B : Build E} {w w₀ : World} {self dep : ObjId} {Q : Event → Core → Prop} {D : ObjId → Prop} {α : Type}

/-- The set contains all dependencies of its targets, and what is made by lookups. -/
structure Closed (B : Build E) (D : ObjId → Prop) : Prop where
  feeds : ∀ o p, D o → B.origin.Feeds o p → D p
  later : ∀ o, B.origin.next ≤ o → D o

theorem Closed.depends (hD : B.Closed D) (hb : B.Books w₀) (hself : D self) (h : B.Depends w₀ self dep) : D dep := by
  obtain hf | hnew := h
  · exact hD.feeds self dep hself hf
  · exact hD.later dep (hb.stays.next.trans hnew)

/-- `make.jobs.start` may be called for `o`. -/
structure Startable (B : Build E) (o : ObjId) (w : World) : Prop where
  books : B.Books w
  knows : B.Knows w o
  unsettled : w.now.rawget o "status" = .nil
  room : w.now.count < E.slots
  command : (w.now.attr o "command").truthy

/-- What holds of every event so far is kept by all code that starts nothing. -/
theorem keeps_always (hQ : ∀ e c, ¬e.Starts → Q e c) {m : Engine α} (hm : Moves (Emits fun e => ¬e.Starts) m) :
    Keeps (fun w => w.Always Q) m := fun w h => (hm w).always h hQ

section
variable (hQ : ∀ e c, ¬e.Starts → Q e c)
include hQ

theorem visit_always {bring : ObjId → Engine Value}
    (hbring : ∀ o w, Called B w o → D o → w.Always Q → wp (bring o) (fun _ w' => w'.Always Q) w) (hb : B.Books w)
    (hroom : w.now.count < E.slots) (hdep : (B.Knows w dep ∧ D dep) ∨ dep = mtTable) (hw : w.Always Q) :
    wp (visit E bring dep) (fun _ w' => w'.Always Q) w := by
  have hcall : wp (callBring E bring dep) (fun _ w' => w'.Always Q) w := by
    obtain ⟨hk,hd⟩ | rfl := hdep
    · unfold callBring
      rw [wp_bind_core]
      split
      · rw [wp_ite]
        split_ifs
        · exact hbring dep w ⟨hb,hk,hroom⟩ hd hw
        · exact (keeps_always hQ (emits_quietly _)).wp hw
      · exact (keeps_always hQ (emits_raiseError _)).wp hw
    · apply wp_mono (callBring_mt bring hb)
      intro r w' hw'
      rw [hw'.2]
      exact hw
  have hfailed : Moves (Emits fun e => ¬e.Starts) (Prog.emit (.failed dep) : Engine Unit) := moves_emit id
  apply wp_visit E hcall
  · exact fun _ _ hw => hw
  · exact fun e w' hw => keeps_always hQ hfailed w' hw
  · exact fun _ hw => hw

variable (hstart : ∀ w o, B.Startable o w → D o → Q (.start o w.now.nextJob.pos) w.now.nextJob)
include hstart

/-- A start is noted for the target that is started. -/
theorem jobsStart_always (h : B.Startable self w) (hd : D self) (hw : w.Always Q) :
    wp (jobsStart E self) (fun _ w' => w'.Always Q) w := by
  have hlaunched : Traced.Always Q (launched w self) := by
    intro x hx
    obtain rfl | hx := List.mem_cons.mp hx
    · exact hstart w self h hd
    · exact hw x hx
  unfold jobsStart
  rw [wp_bind_modify_quietly,wp_bind_core,wp_bind_emit]
  split
  · rw [wp_ite]
    split_ifs
    · exact hlaunched
    · exact (keeps_always hQ (emits_startJob (fun _ => id) self _ _ _)).wp hlaunched
  · exact hlaunched

theorem finishTargetUpdate_always (hd : D self) (b : Pass) (h : b.mustWait = false → B.Opened w₀ self [self] w)
    (hw : w.Always Q) : wp (finishTargetUpdate E self b) (fun _ w' => w'.Always Q) w := by
  have hno : ∀ e : Event, ¬e.Starts → ¬e.Starts := fun _ => id
  unfold finishTargetUpdate
  rw [wp_bind_core,wp_ite,wp_ite,wp_ite,wp_ite,wp_ite]
  split_ifs with hwait hf hm hq hc
  · exact hw
  · refine (keeps_always hQ (moves_bind (emits_markError (fun o => hno _ id) self) fun _ => ?_)).wp hw
    exact moves_bind emits_core fun c => moves_pure _
  · exact hw
  · have ho := h (by simpa using hwait)
    exact jobsStart_always hQ hstart ⟨ho.books,ho.knows self List.mem_cons_self,ho.unsettled,ho.room,hc⟩ hd hw
  · refine (keeps_always hQ (moves_bind (emits_unbuildable E self) fun r => ?_)).wp hw
    exact moves_ite (emits_noRule hno self) (moves_pure _)
  · exact hw

variable (hD : B.Closed D)
include hD

omit hstart in
theorem depStep_always {bring : ObjId → Engine Value}
    (hold : ∀ o w, Called B w o → wp (bring o) (B.Answered w o) w)
    (hbring : ∀ o w, Called B w o → D o → w.Always Q → wp (bring o) (fun _ w' => w'.Always Q) w) (hb : B.Books w₀)
    (hself : self < w₀.now.next) (hd : D self) {b : Pass} (h : B.Opened w₀ self [self] w ∧ B.Waiting b w)
    {name : String} (hname : name ∈ B.origin.deps self) (hw : w.Always Q) :
    wp (depStep E bring self name b) (fun _ w' => w'.Always Q) w := by
  have hlook : Moves (B.Rests [self]) (quietly (targetIndex name) : Engine Value) :=
    rests_quietly (idles_targetIndex name)
  have hopen := keeps_waiting hlook List.mem_cons_self b w h
  have hfirst := keeps_always hQ (emits_quietly (targetIndex name)) w hw
  apply wp_lookup
  · intro dep c hrun
    rw [quietly_ret hrun] at hopen hfirst
    have hdep := h.1.depends hname hrun
    have hcall : (B.Knows { w with now := c } dep ∧ D dep) ∨ dep = mtTable :=
      hdep.imp_left fun hk => ⟨hk.2,hD.depends hb hd hk.1⟩
    have hvisit := wp_and (visit_answered hold hb hself hopen.1 hopen.2 hdep)
      (visit_always hQ hbring hopen.1.books hopen.1.room hcall hfirst)
    apply wp_bind_of hvisit
    · intro r w' hw
      exact (keeps_always hQ (emits_useDep (fun _ => id) self dep name b (depStatus r))).wp hw.2
    · exact fun _ _ hw => hw.2
    · exact fun _ hw => hw.2
  · exact fun _ => hfirst

/-- A call of `bring_up_to_date` for a target of the set starts only what may be started. -/
theorem bringUpToDate_always (n : ℕ) (h : Called B w self) (hd : D self) (hw : w.Always Q) :
    wp (bringUpToDate E n self) (fun _ w' => w'.Always Q) w := by
  induction n generalizing self w with
  | zero => exact hw
  | succ n ih =>
    have hself := h.knows.lt_next h.books
    have hold : ∀ o w, Called B w o → wp (bringUpToDate E n o) (B.Answered w o) w :=
      fun o w hc => bringUpToDate_answered n hc
    apply wp_bringUpToDate E (fun l b w' => ((B.Opened w self [self] w' ∧ B.Waiting b w') ∧
      ∀ m ∈ l, m ∈ B.origin.deps self) ∧ w'.Always Q) fun b w' =>
      (b.mustWait = false → B.Opened w self [self] w') ∧ w'.Always Q
    · exact fun _ => hw
    · intro hs
      have hopen := visitStart_opened (B := B)
        ⟨.refl h.books self,h.room,h.books.accounts.unsettled hself hs,by simpa using h.knows⟩
      apply wp_mono (wp_and hopen ((keeps_always hQ (emits_visitStart E self)).wp hw))
      intro o w' hw
      cases o with
      | ret p => exact ⟨⟨⟨hw.1.1,fun _ hb => by cases hb⟩,hw.1.2 p rfl⟩,hw.2⟩
      | raise e => exact hw.2
      | diverge => exact hw.2
    · intro name l b w' hw
      obtain ⟨⟨hw',hl⟩,hall⟩ := hw
      have hname := hl name List.mem_cons_self
      apply wp_mono (wp_and (depStep_answered hold h.books hself hw' hname)
        (depStep_always hQ hD hold (fun o w hc hd hw => ih hc hd hw) h.books hself hd hw' hname hall))
      intro o w'' hw''
      cases o with
      | ret s =>
        cases s with
        | next b' => exact ⟨⟨hw''.1,fun m hm => hl m (List.mem_cons_of_mem _ hm)⟩,hw''.2⟩
        | stop b' => exact ⟨fun hwait => absurd (hw''.1.2.1.symm.trans hwait) (by simp),hw''.2⟩
        | leave v => exact hw''.2
      | raise e => exact hw''.2
      | diverge => exact hw''.2
    · exact fun _ _ hw => ⟨fun _ => hw.1.1.1,hw.2⟩
    · exact fun b w' hw => finishTargetUpdate_always hQ hstart hd b hw.1 hw.2

end

/-- No goal is added. -/
def Narrows (w w' : World) : Prop := w'.now.goals ⊆ w.now.goals

instance : IsPreorder World Narrows where
  refl _ := subset_rfl
  trans _ _ _ h h' := h'.trans h

theorem narrows_of_keen {w w' : World} (h : Keen w w') : Narrows w w' := h.goals.subset

theorem narrows_goalStep (name : String) (k : ℕ) : Moves Narrows (goalStep E name k) := by
  have hcalm : ∀ {α : Type} {m : Engine α}, Serves Calm m → Moves Narrows m := fun hm =>
    (hm.mono fun _ _ h => narrows_of_keen (keen_of_calm h)).moves
  have hremove : Moves Narrows (quietly (Prog.modify fun c : Core =>
      { c with goals := c.goals.erase name }) : Engine Unit) := fun w => Finset.erase_subset _ _
  unfold goalStep
  refine moves_bind (hcalm (calm_quietly (calm_targetIndex name))) fun v => ?_
  refine moves_bind (hcalm (calm_quietly (calm_asTable v))) fun goal => ?_
  refine moves_bind ?_ fun r => ?_
  · have hvisit := serves_visit E (fun _ _ => keen_of_calm)
      (serves_bringUpToDate E (fun _ _ => keen_of_calm) keen_jobsStart E.stack) goal
    exact (hvisit.mono fun _ _ => narrows_of_keen).moves
  · refine moves_bind ?_ fun s => moves_bind ?_ fun _ => ?_
    · cases r with
      | ok v => exact moves_pure _
      | error e => exact moves_bind (hcalm (calm_setField goal _ _)) fun _ => moves_pure _
    · refine moves_ite (moves_pure _) (moves_ite ?_ (moves_ite ?_ ?_))
      · refine moves_bind (moves_bind (moves_ite (moves_pure _) (hcalm (calm_message _))) fun _ => ?_) fun _ => ?_
        · exact moves_bind (hcalm calm_core) fun c => hcalm (calm_messageIf _)
        · have hexit := (keen_dispatch_drain_exit (E := E) E.fuel).2.2
          exact moves_bind (hexit.mono fun _ _ => narrows_of_keen) fun _ => hremove
      · exact moves_bind (hcalm (calm_message _)) fun _ => hremove
      · exact moves_bind (hcalm (calm_message _)) fun _ => hremove
    · exact moves_bind (hcalm calm_core) fun c => moves_ite (moves_pure _) (moves_pure _)

theorem narrows_goalPass : Moves Narrows (goalPass E) := by
  have hcalm : ∀ {α : Type} {m : Engine α}, Serves Calm m → Moves Narrows m := fun hm =>
    (hm.mono fun _ _ h => narrows_of_keen (keen_of_calm h)).moves
  have hdispatch := ((keen_dispatch_drain_exit (E := E) E.fuel).1).mono fun _ _ => narrows_of_keen
  refine moves_bind (hcalm calm_core) fun c => moves_bind (hcalm (calm_quietly (calm_enumerate E _))) fun order => ?_
  refine moves_bind (moves_forEach narrows_goalStep order 0) fun x => ?_
  cases x with
  | left e => cases e
  | fell k =>
    refine moves_bind (moves_bind (hcalm calm_core) fun c => ?_) fun _ => moves_pure _
    exact moves_ite hdispatch (moves_pure _)

section
variable {G : Finset String} (hQ : ∀ e c, ¬e.Starts → Q e c)
  (hstart : ∀ w o, B.Startable o w → D o → Q (.start o w.now.nextJob.pos) w.now.nextJob) (hD : B.Closed D)
  (hG : ∀ g ∈ G, ∀ p, B.origin.registry g = .obj p → D p)
include hQ hstart hD hG

theorem goalStep_always (hf : B.Free w) {name : String} (hname : name ∈ G) (k : ℕ) (hw : w.Always Q) :
    wp (goalStep E name k) (fun _ w' => w'.Always Q) w := by
  have hlook : Moves (B.Rests []) (quietly (targetIndex name) : Engine Value) :=
    rests_quietly (idles_targetIndex name)
  have hfree := back_of_winds (B := B) (winds_of_rests hlook) hf
  have hfirst := keeps_always hQ (emits_quietly (targetIndex name)) w hw
  apply wp_lookup
  · intro goal c hrun
    rw [wp,quietly_ret hrun] at hfree
    rw [quietly_ret hrun] at hfirst
    have hgoal : (B.Knows { w with now := c } goal ∧ D goal) ∨ goal = mtTable := by
      obtain ⟨hreg,_⟩ | ⟨rfl,hnext,_⟩ := targetIndex_known hf.1 name hrun
      · exact (knows_or_mt hreg _).imp_left fun hk => ⟨hk,hG name hname goal hreg⟩
      · exact .inl ⟨.inr ⟨hf.1.stays.next,Nat.lt_of_lt_of_eq (Nat.lt_succ_self _) hnext.symm⟩,
          hD.later _ hf.1.stays.next⟩
    have hvisit := visit_always hQ (fun o w hc hd hw => bringUpToDate_always hQ hstart hD E.stack hc hd hw)
      hfree.1 (hfree.2 ⟨_,rfl⟩) hgoal hfirst
    apply wp_bind_of hvisit
    · intro r w' hw
      refine (keeps_always hQ ?_).wp hw
      refine moves_bind (emits_goalStatus goal r) fun s => ?_
      refine moves_bind (emits_reportGoal (fun _ => id) goal name s) fun _ => ?_
      exact moves_bind emits_core fun c => moves_ite (moves_pure _) (moves_pure _)
    · exact fun _ _ hw => hw
    · exact fun _ hw => hw
  · exact fun _ => hfirst

theorem goalPass_always (hf : B.Free w) (hgoals : w.now.goals ⊆ G) (hw : w.Always Q) :
    wp (goalPass E) (fun _ w' => w'.Always Q) w := by
  have hback := back_of_winds (B := B) (winds_of_rests (rests_quietly (idles_enumerate E w.now.goals))) hf
  have horder : wp (quietly (enumerate E w.now.goals) : Engine (List String)) (fun o _ =>
      ∀ l, o = .ret l → ∀ m ∈ l, m ∈ G) w := by
    intro l hl m hm
    obtain rfl := Outcome.ret.inj hl
    exact hgoals ((E.names.mem_order _ _ m).mp hm)
  unfold goalPass
  rw [wp_bind_core]
  apply wp_bind_of (wp_and (wp_and hback ((keeps_always hQ (emits_quietly _)).wp hw)) horder)
  · intro order w₁ hw₁
    obtain ⟨⟨hback,hw⟩,hall⟩ := hw₁
    have hloop : wp (forEach (goalStep E) order 0) (fun _ w' => w'.Always Q) w₁ := by
      apply wp_forEach fun l _ w' => (B.Free w' ∧ ∀ m ∈ l, m ∈ G) ∧ w'.Always Q
      · intro name l k w' hw
        obtain ⟨⟨hf,hl⟩,hw⟩ := hw
        apply wp_mono (wp_and (goalStep_ended name k hf)
          (goalStep_always hQ hstart hD hG hf (hl name List.mem_cons_self) k hw))
        intro o w'' hw''
        cases o with
        | ret s =>
          cases s with
          | next k' => exact ⟨⟨hw''.1,fun m hm => hl m (List.mem_cons_of_mem _ hm)⟩,hw''.2⟩
          | stop k' => exact hw''.2
          | leave x => exact hw''.2
        | raise e => exact hw''.2
        | diverge => exact hw''.2
      · exact fun _ _ hw => hw.2
      · exact ⟨⟨⟨hback.1,hback.2 ⟨_,rfl⟩⟩,hall order rfl⟩,hw⟩
    apply wp_bind_of hloop
    · intro x w₂ hw
      cases x with
      | left e => cases e
      | fell k =>
        refine (keeps_always hQ (moves_bind (moves_bind emits_core fun c => ?_) fun _ => moves_pure _)).wp hw
        exact moves_ite (emits_dispatch_drain_exit E (fun _ => id) E.fuel).1 (moves_pure _)
    · exact fun _ _ hw => hw
    · exact fun _ hw => hw
  · exact fun _ _ hw => hw.1.2
  · exact fun _ hw => hw.1.2

end

theorem updateGoalsP_always (hQ : ∀ e c, ¬e.Starts → Q e c)
    (hstart : ∀ w o, B.Startable o w → D o → Q (.start o w.now.nextJob.pos) w.now.nextJob) (hD : B.Closed D)
    (hf : B.Free w) (hG : ∀ g ∈ w.now.wanted, ∀ p, B.origin.registry g = .obj p → D p) (hw : w.Always Q) :
    wp (updateGoalsP E) (fun _ w' => w'.Always Q) w := by
  have hdefault : Moves (Emits fun e => ¬e.Starts) defaultGoals := by
    refine moves_bind emits_core fun c => moves_ite (moves_pure _) (moves_ite (emits_raiseError _) ?_)
    refine moves_bind (emits_quietly _) fun o => ?_
    split
    · exact emits_quietly _
    · exact emits_raiseError _
  have hfirst := wp_and (back_of_winds (B := B) winds_defaultGoals hf) ((keeps_always hQ hdefault).wp hw)
  unfold updateGoalsP
  apply wp_bind_of (wp_and hfirst (defaultGoals_wanted w))
  · intro _ w₁ hw₁
    obtain ⟨⟨hback,hw⟩,hgoals⟩ := hw₁
    have hloop : wp (repeatWhile (goalPass E) E.fuel) (fun _ w' => w'.Always Q) w₁ := by
      apply wp_repeatWhile fun w' => (B.Free w' ∧ w'.now.goals ⊆ w.now.wanted) ∧ w'.Always Q
      · intro w' hw
        obtain ⟨⟨hf,hsub⟩,hw⟩ := hw
        apply wp_mono (wp_and (wp_and (goalPass_back hf) (narrows_goalPass.wp w'))
          (goalPass_always hQ hstart hD hG hf hsub hw))
        intro o w'' hw''
        obtain ⟨⟨hback,hnarrow⟩,hw⟩ := hw''
        cases o with
        | ret b =>
          cases b
          · exact hw
          · exact ⟨⟨⟨hback.1,hback.2 ⟨_,rfl⟩⟩,hnarrow.trans hsub⟩,hw⟩
        | raise e => exact hw
        | diverge => exact hw
      · exact fun _ hw => hw.2
      · exact ⟨⟨⟨hback.1,hback.2 ⟨_,rfl⟩⟩,(hgoals rfl).subset⟩,hw⟩
    apply wp_bind_of hloop
    · intro _ w₂ hw
      have hprint : ∀ v, ¬(Event.printed v).Starts := fun _ => id
      refine (keeps_always hQ (moves_bind emits_core fun c => moves_ite ?_ (moves_pure _))).wp hw
      exact moves_bind (emits_message hprint _) fun _ => emits_raiseError _
    · exact fun _ _ hw => hw
    · exact fun _ hw => hw
  · exact fun _ _ hw => hw.1.2
  · exact fun _ hw => hw.1.2

/-- What holds whenever a target of a set is started holds at all events of a run, if the set has all goals and
with every target its dependencies. -/
theorem updateGoals_always (hQ : ∀ e c, ¬e.Starts → Q e c)
    (hstart : ∀ w o, B.Startable o w → D o → Q (.start o w.now.nextJob.pos) w.now.nextJob) (hD : B.Closed D)
    (hG : ∀ g ∈ B.origin.wanted, ∀ p, B.origin.registry g = .obj p → D p) :
    Traced.Always Q (updateGoals E ⟨B.origin,[]⟩).2 := by
  have hf := free_origin B
  have hi : B.origin.Idles B.guarded { B.origin with deleteOnError := ∅ } :=
    Core.idles_of_heap rfl rfl rfl rfl rfl rfl rfl
  have hfree : B.Free ⟨{ B.origin with deleteOnError := ∅ },[]⟩ := ⟨hf.1.idles hi,hf.2⟩
  have hrun : wp (updateGoals E) (fun _ w => w.Always Q) ⟨B.origin,[]⟩ := by
    unfold updateGoals
    rw [wp_bind_modify_quietly]
    have hatt : wp (Prog.attempt (updateGoalsP E)) (fun _ w => w.Always Q) ⟨{ B.origin with deleteOnError := ∅ },[]⟩ := by
      rw [wp_attempt]
      apply wp_mono (updateGoalsP_always hQ hstart hD hfree hG fun x hx => by cases hx)
      intro o w hw
      cases o <;> exact hw
    apply wp_bind_of hatt
    · intro r w hw
      cases r with
      | ok _ => exact hw
      | error e =>
        refine (keeps_always hQ (moves_bind emits_core fun c => moves_ite (emits_raiseError _) ?_)).wp hw
        split
        · exact moves_ite (emits_quietly _) (emits_raiseError _)
        · exact emits_raiseError _
        · exact emits_raiseError _
    · exact fun _ _ hw => hw
    · exact fun _ hw => hw
  exact hrun

/-- What the goals lead to, with the tables that lookups make. -/
theorem closed_wants (B : Build E) : B.Closed fun o => B.origin.Wants o ∨ B.origin.next ≤ o where
  feeds o p ho hp := by
    obtain ⟨g,hg,q,hq,hreach⟩ | hnew := ho
    · exact .inl ⟨g,hg,q,hq,hreach.tail hp⟩
    · exfalso
      obtain ⟨m,hm,_⟩ := hp
      have hdeps : B.origin.deps o = ∅ := by
        simp [Core.deps,Core.rawget,B.ready.sound.fresh o hnew,noFields]
      rw [hdeps] at hm
      cases hm
  later _ ho := .inr ho

/-- When `o` is started, the goals lead to it, it has no status and a slot is free. -/
structure MayStart (E : Env) (c : Core) (o : ObjId) (now : Core) : Prop where
  wanted : c.Wants o
  unsettled : now.rawget o "status" = .nil
  room : now.count < E.slots
  command : (c.attr o "command").truthy

theorem mayStart_of_start (hr : B.Rooted) : ∀ x ∈ (updateGoals E ⟨B.origin,[]⟩).2.trace, ∀ o i, x.1 = .start o i →
    MayStart E B.origin o x.2 := by
  let Q : Event → Core → Prop := fun e now => ∀ o i, e = .start o i → MayStart E B.origin o now
  have hQ : ∀ e c, ¬e.Starts → Q e c := by
    intro e c he o i hstart
    rw [hstart] at he
    exact absurd trivial he
  have hstart : ∀ w o, B.Startable o w → (B.origin.Wants o ∨ B.origin.next ≤ o) →
      Q (.start o w.now.nextJob.pos) w.now.nextJob := by
    intro w o h ho p j he
    cases he
    obtain ⟨f,hf,_⟩ := h.knows.callable h.books.toLedger hr.commands h.command
    obtain ⟨m,ht⟩ : ∃ m, B.Target m o := h.knows.registered_of_command h.books.toLedger hf
    refine ⟨ho.resolve_right fun hle => absurd ht.lt (not_lt.mpr hle),h.unsettled,h.room,?_⟩
    rw [← Signs.Ledger.attr_command h.books.toLedger hr ht]
    exact h.command
  exact updateGoals_always hQ hstart B.closed_wants fun g hg p hp => .inl ⟨g,hg,p,hp,.refl⟩

theorem event_of_starts {s : ObjId × ℕ} (hs : s ∈ starts w) : ∃ x ∈ w.trace, x.1 = .start s.1 s.2 := by
  obtain ⟨x,hx,hxs⟩ := List.mem_filterMap.mp hs
  refine ⟨x,hx,?_⟩
  cases he : x.1 with
  | start o i =>
    rw [he] at hxs
    rw [← Option.some.inj hxs]
  | _ => simp [he,Event.started] at hxs

theorem wants_of_touched (hr : B.Rooted) {o : ObjId} (h : Touched (updateGoals E ⟨B.origin,[]⟩).2 o) :
    B.origin.Wants o := by
  obtain ⟨i,hi⟩ := h
  obtain ⟨x,hx,hxe⟩ := event_of_starts hi
  exact (mayStart_of_start hr x hx o i hxe).wanted

end Build

/-- In every run only targets are started to which the goals lead and that have no status yet, and only if a
slot is free. -/
theorem starts_as_wanted (E : Env) (hslots : 1 ≤ E.slots) (c : Core) (hc : c.Regular) :
    ∀ x ∈ (updateGoals E ⟨c,[]⟩).2.trace, ∀ o i, x.1 = .start o i → Build.MayStart E c o x.2 :=
  Build.mayStart_of_start (hc.rooted hslots)

/-- The library is wanted for the program. -/
theorem starts_as_wanted_lib : ∃ x ∈ (updateGoals Env.yielding ⟨Core.withLib,[]⟩).2.trace, x.1 = .start 4 1 ∧
    Build.MayStart Env.yielding Core.withLib 4 x.2 := by
  have hstart : ∃ x ∈ (updateGoals Env.yielding ⟨Core.withLib,[]⟩).2.trace, x.1 = .start 4 1 := by decide +kernel
  obtain ⟨x,hx,hs⟩ := hstart
  exact ⟨x,hx,hs,starts_as_wanted Env.yielding (by decide) Core.withLib regular_withLib x hx 4 1 hs⟩

end Presto

import Presto.Engine.RunFacts
import Presto.Engine.JobFrame

/-! When a build ends without an error, all its goals are done. -/
namespace Presto
open Program Traced

/-- The goals stay, and a failure is not forgotten. -/
structure Core.Keen (c c' : Core) : Prop where
  goals : c'.goals = c.goals
  failure : c.failure = true → c'.failure = true

def Keen (w w' : World) : Prop := w.now.Keen w'.now

instance : IsPreorder World Keen where
  refl _ := ⟨rfl,id⟩
  trans _ _ _ h h' := ⟨h'.goals.trans h.goals,fun hf => h'.failure (h.failure hf)⟩

section
variable {E : Env} {α : Type}

theorem keen_of_calm {w w' : World} (h : Calm w w') : Keen w w' := ⟨h.goals,fun hf => h.failure.trans hf⟩

theorem keen_modify {f : Core → Core} (hg : ∀ c, (f c).goals = c.goals)
    (hf : ∀ c, c.failure = true → (f c).failure = true) :
    Serves Keen (quietly (Prog.modify f) : Engine Unit) := fun w => ⟨⟨hg w.now,hf w.now⟩,by rintro ⟨⟩⟩

theorem keen_resumeCommand (f : Fn) (name : Value) (i n : ℕ) :
    Serves Keen (quietly (resumeCommand E f name i n) : Engine Signal) := by
  intro w
  have h : (resumeCommand E f name i n w.now).2.goals = w.now.goals ∧
      (resumeCommand E f name i n w.now).2.failure = w.now.failure ∧
      (resumeCommand E f name i n w.now).1 ≠ .diverge := by
    unfold resumeCommand
    rw [run_bind_gets]
    split
    · exact ⟨rfl,rfl,by rintro ⟨⟩⟩
    · split
      · next path =>
        split
        · exact ⟨rfl,rfl,by rintro ⟨⟩⟩
        · cases E.md path (id w.now).files <;> exact ⟨rfl,rfl,by rintro ⟨⟩⟩
      · exact ⟨rfl,rfl,by rintro ⟨⟩⟩
    · exact ⟨rfl,rfl,by rintro ⟨⟩⟩
  exact ⟨⟨h.1,fun hf => h.2.1.trans hf⟩,h.2.2⟩

theorem keen_emit (e : Event) : Serves Keen (Prog.emit e : Engine Unit) :=
  fun _ => ⟨⟨rfl,id⟩,by rintro ⟨⟩⟩

theorem keen_core : Serves Keen core := serves_gets _

theorem keen_jobsStart (o : ObjId) : Serves Keen (jobsStart E o) := by
  refine serves_bind (keen_modify (fun _ => rfl) fun _ => id) fun _ => serves_bind keen_core fun c => ?_
  refine serves_bind (keen_emit _) fun _ => ?_
  split
  · refine serves_ite (serves_raise _) ?_
    refine serves_bind (keen_emit _) fun _ => serves_bind (keen_resumeCommand _ _ _ _) fun signal => ?_
    refine serves_bind ?_ fun _ => serves_bind (keen_emit _) fun _ => serves_bind keen_core fun _ => serves_pure _
    refine serves_bind (keen_modify (fun c => ?_) fun c hf => ?_) fun _ => serves_ite (keen_emit _) (serves_pure _)
    · cases signal <;> rfl
    · cases signal <;> exact hf
  · exact serves_raise _

theorem keen_finishJob (i : ℕ) (j : Job) (err : Option Value) : Serves Keen (finishJob i j err) := by
  have hindex : ∀ v, Serves Keen (quietly (indexValue v) : Engine Value) := by
    intro v
    refine (calm_quietly ?_).mono fun _ _ => keen_of_calm
    cases v with
    | str k => exact calm_targetIndex k
    | num n => exact fun c => ⟨⟨rfl,rfl,rfl,rfl,rfl,rfl⟩,by rintro ⟨⟩⟩
    | _ => exact serves_raise _
  have htable : ∀ v, Serves Keen (quietly (asTable v) : Engine ObjId) := fun v =>
    (calm_quietly (calm_asTable v)).mono fun _ _ => keen_of_calm
  have hset : ∀ o key v, Serves Keen (setField o key v) := fun o key v =>
    (calm_setField o key v).mono fun _ _ => keen_of_calm
  refine serves_bind (keen_modify (fun _ => rfl) fun _ => id) fun _ => serves_bind ?_ fun _ => keen_emit _
  refine serves_bind (hindex _) fun v => serves_bind (htable v) fun o => serves_bind (hset _ _ _) fun _ => ?_
  cases err with
  | none => exact serves_pure _
  | some e =>
    refine serves_bind (hindex _) fun v => serves_bind (htable v) fun o => serves_bind (hset _ _ _) fun _ => ?_
    refine serves_bind (hindex _) fun v => serves_bind (htable v) fun p => serves_bind (hset _ _ _) fun _ => ?_
    exact keen_emit _

theorem keen_dispatch_drain_exit (n : ℕ) : Moves Keen (dispatch E n) ∧ Moves Keen (drain E n) ∧
    Moves Keen (makeExit E n) := by
  have hmessage : ∀ v, Moves Keen (message v) := fun v =>
    ((calm_message v).mono fun _ _ => keen_of_calm).moves
  have hraise : ∀ msg, Moves Keen (raiseError msg : Engine Unit) := fun msg => moves_raise _
  induction n with
  | zero => exact ⟨moves_diverge,moves_diverge,moves_diverge⟩
  | succ n ih =>
    obtain ⟨hdispatch,hdrain,hexit⟩ := ih
    refine ⟨?_,?_,?_⟩
    · unfold dispatch
      refine moves_bind (moves_gets _) fun c => moves_bind ?_ fun order => ?_
      · exact fun _ => ⟨rfl,id⟩
      refine moves_bind (moves_forEach (fun i waiting => ?_) _ _) fun x => ?_
      · unfold dispatchJob
        refine moves_bind (moves_gets _) fun c => ?_
        split
        · exact moves_pure _
        · next j _ =>
          refine moves_bind (keen_emit _).moves fun _ => moves_bind ?_ fun signal => ?_
          · exact moves_ite (keen_resumeCommand _ _ _ _).moves (moves_pure _)
          · cases signal with
            | finished => exact moves_bind (keen_finishJob _ _ _).moves fun _ => moves_pure _
            | raised v =>
              refine moves_bind (keen_finishJob _ _ _).moves fun _ => moves_bind ?_ fun _ =>
                moves_bind hexit fun _ => moves_pure _
              refine moves_bind ((calm_concatText _).mono fun _ _ => keen_of_calm).moves fun _ => ?_
              exact moves_bind (hmessage _) fun _ => moves_ite (hmessage _) (moves_pure _)
            | yielded v =>
              refine moves_bind (fun _ => ⟨rfl,id⟩) fun _ => ?_
              exact moves_bind (keen_emit _).moves fun _ => moves_pure _
      rcases x with waiting | e
      · refine moves_bind (moves_gets _) fun c' => moves_ite (moves_pure _) (moves_ite (moves_pure _) ?_)
        exact moves_bind (moves_ite (keen_emit _).moves (moves_raise _)) fun _ => hdispatch
      · cases e
    · unfold drain
      refine moves_bind (moves_gets _) fun c => moves_ite ?_ (moves_pure _)
      exact moves_bind (moves_attempt hdispatch) fun _ => hdrain
    · unfold makeExit
      refine moves_bind (moves_gets _) fun c => moves_ite ?_ (moves_ite ?_ (hraise _))
      · exact fun _ => ⟨rfl,fun _ => rfl⟩
      · refine moves_bind (hmessage _) fun _ => moves_bind hdrain fun _ => ?_
        exact moves_bind (hmessage _) fun _ => hraise _

end

namespace Build.Signs
variable {E : Env} {B : Build E} {S : B.Signs} {w w' : World} {G : Finset String} {α : Type}

/-- Every goal of `G` is still on the list, is done, or has failed. -/
structure Pursued (S : B.Signs) (G : Finset String) (w : World) : Prop where
  facts : S.Facts w
  goals : ∀ g ∈ G, g ∈ w.now.goals ∨ S.done w.now g ∨ w.now.failure = true

theorem Pursued.step (h : S.Pursued G w) (hb : B.Books w) (hf : S.Facts w') (ha : B.Along w w')
    (hk : Keen w w') : S.Pursued G w' := by
  refine ⟨hf,fun g hg => ?_⟩
  rcases h.goals g hg with h | h | h
  · exact .inl (by rw [hk.goals]; exact h)
  · exact .inr (.inl (h.mono hb.stays.next ha.advances))
  · exact .inr (.inr (hk.failure h))

/-- What minds the facts and keeps the goals. -/
theorem keeps_pursued {m : Engine α} (hw : Moves B.Winds m) (hm : Moves S.Minds m) (hk : Moves Keen m) :
    Keeps (fun w => B.Free w ∧ S.Pursued G w) m := by
  rintro w ⟨hf,hp⟩
  obtain ⟨hb,_,hcount⟩ := hw w hf.1
  obtain ⟨⟨_,hfacts⟩,ha⟩ := hm w hf.1 hp.facts
  exact ⟨⟨hb,hcount.trans_lt hf.2⟩,hp.step hf.1 hfacts ha (hk w)⟩

/-- A goal is taken off the list. -/
theorem Pursued.erase (h : S.Pursued G w) (hr : B.Rooted) (hb : B.Books w) {name : String}
    (hname : S.done w.now name ∨ w.now.failure = true) :
    S.Pursued G { w with now := { w.now with goals := w.now.goals.erase name } } := by
  have hi : w.now.Idles B.guarded { w.now with goals := w.now.goals.erase name } :=
    Core.idles_of_heap rfl rfl rfl rfl rfl rfl rfl
  have hm : w.now.Bare B.guarded { w.now with goals := w.now.goals.erase name } :=
    Core.bare_of_heap rfl rfl rfl
  refine ⟨h.facts.move hr hb.toLedger hi hm.firm (S.sees hb.toLedger h.facts.inv hi.toStays hm.sees),fun g hg => ?_⟩
  have hdone : ∀ {g}, S.done w.now g → S.done { w.now with goals := w.now.goals.erase name } g :=
    fun h => h.mono hb.stays.next hi.advances
  by_cases he : g = name
  · subst he
    exact .inr (hname.imp_left hdone)
  · rcases h.goals g hg with h | h | h
    · exact .inl (Finset.mem_erase.mpr ⟨he,h⟩)
    · exact .inr (.inl (hdone h))
    · exact .inr (.inr h)

section Report
variable {name : String}

/-- A goal that is done is taken off the list. -/
theorem removeGoal_pursued (hr : B.Rooted) (hf : B.Free w) (h : S.Pursued G w) {m : Engine Unit}
    (hw : Moves B.Winds m) (hm : Moves S.Minds m) (hk : Moves Keen m) (hd : S.done w.now name) :
    wp (m >>= fun _ => quietly (Prog.modify fun c : Core => { c with goals := c.goals.erase name }))
      (alwaysPost S.Facts fun _ => S.Pursued G) w := by
  have hkeep : Keeps (fun w => (B.Free w ∧ S.Pursued G w) ∧ S.done w.now name) m := by
    rintro w ⟨⟨hf,hp⟩,hd⟩
    exact ⟨keeps_pursued hw hm hk w ⟨hf,hp⟩,hd.mono hf.1.stays.next (hm w hf.1 hp.facts).2.advances⟩
  apply hkeep.wp_bind ⟨⟨hf,h⟩,hd⟩
  · rintro _ w' ⟨⟨hf,hp⟩,hd⟩
    have he := hp.erase hr hf.1 (.inl hd)
    exact ⟨he.facts,he⟩
  · exact fun o w' ho hw => alwaysPost_of hw.1.2.facts fun a ha => absurd ha (ho a)

/-- The report on a goal. -/
theorem reportGoal_pursued (hr : B.Rooted) (hf : B.Free w) (h : S.Pursued G w) (goal : ObjId)
    {status : Value} (hknown : ∃ s : Status, status = s.toValue)
    (hdone : status = Status.none.toValue ∨ status = Status.updated.toValue → S.done w.now name) :
    wp (reportGoal E goal name status) (alwaysPost S.Facts fun _ => S.Pursued G) w := by
  have hmessage : ∀ v, Moves S.Minds (message v) := fun v => minds_of_bears hr (bears_message v)
  have hkeen : ∀ v, Moves Keen (message v) := fun v => ((calm_message v).mono fun _ _ => keen_of_calm).moves
  unfold reportGoal
  rw [wp_ite,wp_ite,wp_ite]
  split_ifs with h₁ h₂ h₃
  · exact ⟨h.facts,h⟩
  · have hw : Moves B.Winds (reportFailure E goal name) :=
      moves_bind (moves_ite (moves_pure _) (winds_message _)) fun _ =>
        moves_bind (winds_of_rests rests_core) fun c => winds_messageIf _
    have hm : Moves S.Minds (reportFailure E goal name) :=
      moves_bind (moves_ite (moves_pure _) (hmessage _)) fun _ =>
        moves_bind (moves_gets _) fun c => minds_of_bears hr (bears_messageIf _)
    have hk : Moves Keen (reportFailure E goal name) :=
      moves_bind (moves_ite (moves_pure _) (hkeen _)) fun _ =>
        moves_bind (moves_gets _) fun c => moves_ite (hkeen _) (moves_pure _)
    apply (keeps_pursued hw hm hk).wp_bind ⟨hf,h⟩
    · rintro _ w₁ hw₁
      obtain ⟨hf₂,hp⟩ := keeps_pursued (winds_makeExit E.fuel) (minds_dispatch_drain_exit hr E.fuel).2.2
        (keen_dispatch_drain_exit E.fuel).2.2 w₁ hw₁
      have hexit : wp (makeExit E E.fuel) (alwaysPost S.Facts fun _ w' =>
          (B.Free w' ∧ S.Pursued G w') ∧ w'.now.failure = true) w₁ :=
        alwaysPost_of hp.facts fun _ ho => ⟨⟨hf₂,hp⟩,by rw [makeExit_returns E.fuel w₁ ho]⟩
      apply wp_bind_always hexit
      rintro _ w₂ _ ⟨⟨hf,hp⟩,hfail⟩
      have he : S.Pursued G { w₂ with now := { w₂.now with goals := w₂.now.goals.erase name } } :=
        hp.erase hr hf.1 (.inr hfail)
      exact ⟨he.facts,he⟩
    · exact fun o w' ho hw => alwaysPost_of hw.2.facts fun a ha => absurd ha (ho a)
  · exact removeGoal_pursued hr hf h (winds_message _) (hmessage _) (hkeen _) (hdone (.inl h₃))
  · refine removeGoal_pursued hr hf h (winds_message _) (hmessage _) (hkeen _) (hdone (.inr ?_))
    obtain ⟨s,rfl⟩ := hknown
    cases s
    · exact absurd rfl h₃
    · rfl
    · exact absurd rfl h₁
    · exact absurd rfl h₂

end Report

/-- What is known of the status of a goal. -/
def StatusKnown (S : B.Signs) (G : Finset String) (name : String) (s : Value) (w : World) : Prop :=
  S.Pursued G w ∧ (w.now.count < E.slots ∨ s = Status.running.toValue) ∧ (∃ t : Status, s = t.toValue) ∧
    (s = Status.none.toValue ∨ s = Status.updated.toValue → S.done w.now name)

/-- The status of a goal after its call. -/
theorem goalStatus_pursued (hr : B.Rooted) (hf : B.Free w) (h : S.Pursued G w) {goal : ObjId} {name : String}
    (hl : B.Leads w name goal ∨ goal = mtTable) {r : Except Value Value} (hv : B.GoalVisited goal (.ret r) w')
    (hans : S.VisitSign w goal (.ret r) w') (hk : Keen w w') :
    wp (goalStatus goal r) (alwaysPost S.Facts fun s w' => B.Books w' ∧ S.StatusKnown G name s w') w' := by
  cases r with
  | ok v =>
    have hp := h.step hf.1 hans.1.facts hans.1.along hk
    refine ⟨hp.facts,hv.1,hp,hv.2.2.1.imp_right fun he => by cases he; rfl,hans.1.status v rfl,?_⟩
    have hlead := hl.resolve_right (Knows.ne_mt hans.2)
    rintro (rfl | rfl)
    · exact (hans.1.none rfl).done hlead
    · obtain ⟨⟨m,ht⟩,hs⟩ := hans.1.updated rfl
      rcases hlead with hlead | ⟨_,hle,_⟩
      · exact .built hlead hs
      · exact absurd ht.lt (not_lt.mpr hle)
  | error e =>
    have hp := h.step hf.1 hans.1 hans.2 hk
    unfold goalStatus
    rw [wp_bind_setField]
    have hi : w'.now.Idles B.guarded (w'.now.rawset goal "errmsg" e) := Core.idles_rawset_of_mem hv.2.1 (by decide)
    have hm : w'.now.Bare B.guarded (w'.now.rawset goal "errmsg" e) := Core.bare_rawset (.inr (by decide))
    have hfacts := hp.facts.move hr hv.1.toLedger hi hm.firm (S.sees hv.1.toLedger hp.facts.inv hi.toStays hm.sees)
    refine ⟨hfacts,hv.1.idles hi,hp.step hv.1 hfacts (.of_idles hr hi hm.firm) ⟨rfl,id⟩,
      .inl (hv.2.2.1.resolve_right (by simp)),⟨.error,rfl⟩,?_⟩
    rintro (h | h) <;> cases h

/-- One goal. -/
theorem goalStep_pursued (hr : B.Rooted) (hf : B.Free w) (h : S.Pursued G w) (name : String) (k : ℕ) :
    wp (goalStep E name k) (alwaysPost S.Facts fun x w' => S.Pursued G w' ∧
      (x = .next (k+1) ∨ x = .stop (k+1))) w := by
  have hlook : Moves (S.Bears []) (quietly (targetIndex name) : Engine Value) :=
    bears_quietly hr (idles_targetIndex name) (bare_targetIndex name)
  have hkeep := keeps_pursued (winds_of_rests (rests_quietly (idles_targetIndex name)))
    (minds_of_bears hr hlook) (((calm_quietly (calm_targetIndex name)).mono fun _ _ => keen_of_calm).moves)
    w ⟨hf,h⟩
  apply wp_lookup
  · intro goal c hrun
    rw [quietly_ret hrun] at hkeep
    obtain ⟨hf₁,h₁⟩ := hkeep
    have hl := lookup_leads hf.1 hrun
    have hk : B.Knows { w with now := c } goal ∨ goal = mtTable := hl.imp_left Leads.knows
    have hkeen : wp (visit E (bringUpToDate E E.stack) goal) (fun _ w' => Keen { w with now := c } w')
        { w with now := c } :=
      (serves_visit E (fun _ _ => keen_of_calm)
        (serves_bringUpToDate E (fun _ _ => keen_of_calm) keen_jobsStart E.stack) goal _).1
    apply wp_bind_of (wp_and (wp_and (visit_goal hf₁ hk)
      (visit_sign hr (fun o w hc hf => bringUpToDate_sign hr E.stack hc hf) hf₁.1 hf₁.2 h₁.facts hk)) hkeen)
    · rintro r w₁ ⟨⟨hv,hans⟩,hkw⟩
      apply wp_bind_always (goalStatus_pursued hr hf₁ h₁ hl hv hans hkw)
      rintro s w₂ _ ⟨hb,hp,hroom,hknown,hdone⟩
      have hreport : wp (reportGoal E goal name s) (alwaysPost S.Facts fun _ => S.Pursued G) w₂ := by
        by_cases hrunning : s = Status.running.toValue
        · have hpure : reportGoal E goal name s = pure () := if_pos hrunning
          rw [hpure]
          exact ⟨hp.facts,hp⟩
        · exact reportGoal_pursued hr ⟨hb,hroom.resolve_right hrunning⟩ hp goal hknown hdone
      apply wp_bind_always hreport
      intro _ w₃ hfacts hp
      rw [wp_bind_core,wp_ite]
      split_ifs
      · exact ⟨hfacts,hp,.inr rfl⟩
      · exact ⟨hfacts,hp,.inl rfl⟩
    · exact fun _ w' hw => hw.1.2.1
    · exact fun w' hw => hw.1.2.1
  · exact fun e => hkeep.2.facts

/-- The goals of a pass. -/
theorem goals_pursued (hr : B.Rooted) (hf : B.Free w) (h : S.Pursued G w) (order : List String) :
    wp (forEach (goalStep E) order 0) (alwaysPost (fun w' => S.Facts w' ∧ B.Books w') fun x w' =>
      ∀ k, x = .fell k → S.Pursued G w' ∧ (k = 0 → order = [] ∧ w' = w)) w := by
  apply wp_forEach fun l k w' => (B.Free w' ∧ S.Pursued G w') ∧ (k = 0 → l = order ∧ w' = w)
  · rintro name l k w' ⟨⟨hf,hp⟩,_⟩
    apply wp_mono (wp_and (goalStep_ended name k hf) (goalStep_pursued hr hf hp name k))
    rintro ((k' | k' | x) | e | _) w'' ⟨hend,hret⟩
    · obtain ⟨_,hp,hx | hx⟩ := hret <;> cases hx
      exact ⟨⟨hend,hp⟩,fun h => by omega⟩
    · obtain ⟨hfacts,hp,hx | hx⟩ := hret <;> cases hx
      refine ⟨⟨hfacts,hend⟩,?_⟩
      rintro _ ⟨rfl⟩
      exact ⟨hp,fun h => by omega⟩
    · cases x
    · exact ⟨hret,hend⟩
    · exact ⟨hret,hend⟩
  · rintro k w' ⟨⟨hf,hp⟩,hzero⟩
    refine ⟨⟨hp.facts,hf.1⟩,?_⟩
    rintro _ ⟨rfl⟩
    exact ⟨hp,fun h => ⟨(hzero h).1.symm,(hzero h).2⟩⟩
  · exact ⟨⟨hf,h⟩,fun _ => ⟨rfl,rfl⟩⟩

theorem dispatchRunning_pursued (hr : B.Rooted) (hb : B.Books w) (h : S.Pursued G w) (jobCount : ℤ) :
    wp (dispatchRunning E jobCount) (alwaysPost S.Facts fun _ w' =>
      S.Pursued G w' ∧ w'.now.goals = w.now.goals) w := by
  unfold dispatchRunning
  rw [wp_bind_core,wp_ite]
  split_ifs
  · obtain ⟨⟨_,hf⟩,ha⟩ := (minds_dispatch_drain_exit hr E.fuel).1 w hb h.facts
    have hk := (keen_dispatch_drain_exit (E := E) E.fuel).1 w
    exact alwaysPost_of hf fun _ _ => ⟨h.step hb hf ha hk,hk.goals⟩
  · exact ⟨h.facts,h,rfl⟩

/-- One pass of the main loop; it is the last one if no goal is left. -/
theorem goalPass_pursued (hr : B.Rooted) (hf : B.Free w) (h : S.Pursued G w) :
    wp (goalPass E) (alwaysPost S.Facts fun b w' => S.Pursued G w' ∧ (b = false → w'.now.goals = ∅)) w := by
  unfold goalPass
  rw [wp_bind_core]
  set order := E.names.order w.now.tick w.now.goals with horder
  set w₀ : World := { w with now := { w.now with tick := w.now.tick+1 } }
  have hm : Moves (S.Bears []) (quietly (enumerate E w.now.goals) : Engine (List String)) :=
    bears_quietly hr (idles_enumerate E _) (bare_enumerate _)
  have h₀ : B.Free w₀ ∧ S.Pursued G w₀ :=
    keeps_pursued (winds_of_rests (rests_quietly (idles_enumerate E _))) (minds_of_bears hr hm)
      (((calm_quietly (calm_enumerate E _)).mono fun _ _ => keen_of_calm).moves) w ⟨hf,h⟩
  have hnone : order = [] → w₀.now.goals = ∅ := by
    intro hnil
    apply Finset.eq_empty_of_forall_notMem
    intro g hg
    have hmem := (E.names.mem_order w.now.tick w.now.goals g).mpr hg
    rw [← horder,hnil] at hmem
    cases hmem
  refine wp_bind_ret (show quietly (enumerate E w.now.goals) w = (.ret order,w₀) from rfl) ?_
  apply wp_bind_of (goals_pursued hr h₀.1 h₀.2 order)
  · rintro (k | x) w₁ ⟨⟨_,hb⟩,hret⟩
    · obtain ⟨hp,hzero⟩ := hret k rfl
      apply wp_bind_always (dispatchRunning_pursued hr hb hp w.now.count)
      rintro _ w₂ hfacts ⟨hp',hgoals⟩
      refine ⟨hfacts,hp',fun hfalse => hgoals.trans ?_⟩
      obtain ⟨hnil,rfl⟩ := hzero (by simpa using hfalse)
      exact hnone hnil
    · cases x
  · exact fun _ _ hw => hw.1
  · exact fun _ hw => hw.1

/-- The facts of a build that has not begun. -/
theorem facts_origin (S : B.Signs) (hr : B.Rooted) : S.Facts ⟨B.origin,[]⟩ where
  inv := S.first
  pruned _ _ _ := .inl rfl
  clear o _ _ := ⟨B.ready.unbuilt o,hr.unfailed o⟩
  closed _ o _ ha := by
    rcases ha with ha | ha
    all_goals exact absurd ((B.ready.unbuilt o).symm.trans ha) (toValue_ne_nil _).symm
  touched o ha := by
    rcases ha with ha | ha
    all_goals exact absurd ((B.ready.unbuilt o).symm.trans ha) (toValue_ne_nil _).symm
  sure := by simp [starts]
  good _ o _ hu := absurd ((B.ready.unbuilt o).symm.trans hu) (toValue_ne_nil _).symm
  jobs i j hl := by
    change B.origin.running.lookup i = some j at hl
    rw [B.ready.running] at hl
    simp at hl
  begun := by simp

theorem minds_defaultGoals (hr : B.Rooted) : Moves S.Minds defaultGoals := by
  refine moves_bind (moves_gets _) fun c => moves_ite (moves_pure _) (moves_ite (moves_raise _) ?_)
  refine moves_bind (minds_of_bears hr (bears_quietly hr (idles_asTable _) (bare_asTable _))) fun o => ?_
  split
  · exact minds_of_bears hr (bears_modify hr fun w _ _ =>
      ⟨Core.idles_of_heap rfl rfl rfl rfl rfl rfl rfl,Core.bare_of_heap rfl rfl rfl⟩)
  · exact moves_raise _

end Build.Signs

/-- The goals of a build: those of the command line, or the first target of the makefile. -/
def Core.wanted (c : Core) : Finset String :=
  if c.goals ≠ ∅ then c.goals
  else match c.registry "__default" with
    | .obj o => match c.attr o "name" with
      | .str name => {name}
      | _ => ∅
    | _ => ∅

theorem defaultGoals_wanted (w : World) :
    wp defaultGoals (fun o w' => o = .ret () → w'.now.goals = w.now.wanted) w := by
  unfold defaultGoals Core.wanted
  rw [wp_bind_core,wp_ite,wp_ite]
  split_ifs
  · exact fun _ => rfl
  · exact fun ho => by cases ho
  · cases hd : w.now.registry "__default" with
    | obj o =>
      rw [wp_bind_asTable]
      dsimp only
      cases hn : w.now.attr o "name" with
      | str name => exact fun _ => rfl
      | _ => exact fun ho => by cases ho
    | _ => exact fun ho => by cases ho

namespace Build.Signs
variable {E : Env} {B : Build E} {S : B.Signs} {w : World} {G : Finset String}

theorem updateGoalsP_done (hr : B.Rooted) (hf : B.Free w) (h : S.Facts w) :
    wp (updateGoalsP E) (alwaysPost S.Facts fun _ w' => ∀ g ∈ w.now.wanted, S.done w'.now g) w := by
  unfold updateGoalsP
  have hdefault : wp defaultGoals (alwaysPost S.Facts fun _ w' => B.Free w' ∧ S.Pursued w.now.wanted w') w := by
    have hm := minds_defaultGoals hr w hf.1 h
    have hback := back_of_winds (B := B) winds_defaultGoals hf
    refine alwaysPost_of hm.1.2 fun _ ho => ⟨⟨hback.1,hback.2 ⟨_,ho⟩⟩,hm.1.2,fun g hg => .inl ?_⟩
    rw [defaultGoals_wanted w ho]
    exact hg
  apply wp_bind_always hdefault
  rintro _ w₁ _ ⟨hf₁,hp⟩
  have hloop : wp (repeatWhile (goalPass E) E.fuel) (alwaysPost S.Facts fun _ w' =>
      B.Free w' ∧ S.Pursued w.now.wanted w' ∧ w'.now.goals = ∅) w₁ := by
    apply wp_repeatWhile fun w' => B.Free w' ∧ S.Pursued w.now.wanted w'
    · rintro w' ⟨hf,hp⟩
      apply wp_mono (wp_and (goalPass_back hf) (goalPass_pursued hr hf hp))
      rintro (b | e | _) w'' ⟨hback,hret⟩
      · obtain ⟨hfacts,hp,hgoals⟩ := hret
        have hf : B.Free w'' := ⟨hback.1,hback.2 ⟨b,rfl⟩⟩
        cases b
        · exact ⟨hfacts,hf,hp,hgoals rfl⟩
        · exact ⟨hf,hp⟩
      · exact hret
      · exact hret
    · exact fun w' hw => hw.2.facts
    · exact ⟨hf₁,hp⟩
  apply wp_bind_always hloop
  rintro _ w₂ hfacts ⟨hf₂,hp,hgoals⟩
  rw [wp_bind_core,wp_ite]
  split_ifs with hfail
  · have hkeep : Keeps (fun w => B.Books w ∧ S.Facts w) (message (.str "One or more targets not remade due to errors.")) :=
      fun w hw => (minds_of_bears hr (bears_message _) w hw.1 hw.2).1
    apply hkeep.wp_bind ⟨hf₂.1,hfacts⟩
    · exact fun _ _ hw => hw.2
    · exact fun _ _ ho hw => alwaysPost_of hw.2 fun a ha => absurd ha (ho a)
  · refine ⟨hfacts,fun g hg => ?_⟩
    rcases hp.goals g hg with h | h | h
    · rw [hgoals] at h
      cases h
    · exact h
    · exact absurd h hfail

/-- The facts hold at the end of every run, and a run without an error has done all its goals. -/
theorem updateGoals_done (S : B.Signs) (hr : B.Rooted) : wp (updateGoals E) (fun o w => S.Facts w ∧
    (o = .ret () → ∀ g ∈ B.origin.wanted, S.done w.now g)) ⟨B.origin,[]⟩ := by
  have hf := free_origin B
  have hi : B.origin.Idles B.guarded { B.origin with deleteOnError := ∅ } :=
    Core.idles_of_heap rfl rfl rfl rfl rfl rfl rfl
  have hm : B.origin.Bare B.guarded { B.origin with deleteOnError := ∅ } := Core.bare_of_heap rfl rfl rfl
  have h := (facts_origin S hr).move hr hf.1.toLedger hi hm.firm (S.sees hf.1.toLedger S.first hi.toStays hm.sees)
  have hfree : B.Free ⟨{ B.origin with deleteOnError := ∅ },[]⟩ := ⟨hf.1.idles hi,hf.2⟩
  unfold updateGoals
  rw [wp_bind_modify_quietly]
  have hatt : wp (Prog.attempt (updateGoalsP E)) (fun o w => S.Facts w ∧ (o = .ret (.ok ()) →
      ∀ g ∈ B.origin.wanted, S.done w.now g)) ⟨{ B.origin with deleteOnError := ∅ },[]⟩ := by
    rw [wp_attempt]
    apply wp_mono (updateGoalsP_done hr hfree h)
    rintro (_ | _ | _) w hw
    · exact ⟨hw.1,fun _ => hw.2⟩
    · exact ⟨hw,fun ho => by cases ho⟩
    · exact ⟨hw,fun ho => by cases ho⟩
  apply wp_bind_of hatt
  · rintro (e | _) w ⟨hfacts,hret⟩
    · rw [wp_bind_core,wp_ite]
      split_ifs
      · exact ⟨hfacts,fun ho => by cases ho⟩
      · split
        · rw [wp_ite]
          split_ifs <;> exact ⟨hfacts,fun ho => by cases ho⟩
        · exact ⟨hfacts,fun ho => by cases ho⟩
        · exact ⟨hfacts,fun ho => by cases ho⟩
    · exact ⟨hfacts,fun _ => hret rfl⟩
  · exact fun _ _ hw => ⟨hw.1,fun ho => by cases ho⟩
  · exact fun _ hw => ⟨hw.1,fun ho => by cases ho⟩

/-- What a target that is done leads to is done as well. -/
theorem done_reaches (h : S.Facts w) {m : String} (hd : S.done w.now m)
    {o : ObjId} (ht : B.Target m o) {n : String} (hn : n ∈ B.origin.deps o) : S.done w.now n := by
  rcases hd with ⟨hnil,_⟩ | ⟨hp,hs⟩ | ⟨hp,_,hdeps⟩
  · exact absurd (hnil.symm.trans ht.1) (by simp)
  · exact h.closed m o ht (by
      obtain rfl := Value.obj.inj (hp.1.symm.trans ht.1)
      exact .inr hs) n hn
  · obtain rfl := Value.obj.inj (hp.1.symm.trans ht.1)
    exact hdeps n hn

end Build.Signs
end Presto

import Presto.Engine.Noting

/-! In every run a job starts with the dependencies that have been updated or are newer on its list, if its
file is there or its other dependencies are younger than the build. -/
namespace Presto
open Program Traced

/-- Whenever a job is started its list holds exactly the dependencies that have been updated or are newer. -/
def StartsRight (E : Env) (c : Core) : Prop :=
  ∀ x ∈ (updateGoals E ⟨c,[]⟩).2.trace, ∀ o i, x.1 = .start o i → x.2.ListsNewer o

namespace Build
variable {E : Env} {B : Build E} {w : World} {α : Type}

theorem keeps_lists {m : Engine α} (hm : Moves Aside m) : Keeps B.Lists m := fun w h => h.step (hm w)

theorem Lists.first (hnone : B.origin.Lacks "deps_newer") : B.Lists ⟨B.origin,[]⟩ :=
  ⟨le_rfl,hnone _,fun _ o _ => .inl (hnone o),fun _ hx => by cases hx⟩

section
variable {hg : B.origin.FileGraph} {hr : B.Rooted} {hE : B.origin.Confined E}
  {hwatch : ∀ k ∈ Core.watched, k ∈ B.guarded}

/-- One goal. -/
theorem goalStep_lists (hf : B.Free w) (h : (B.freshSigns hg hr hE hwatch).Facts w) (hlist : B.Lists w)
    (name : String) (k : ℕ) : wp (goalStep E name k) (fun _ w' => B.Lists w') w := by
  have hlook : Moves (Signs.Bears (B.freshSigns hg hr hE hwatch) []) (quietly (targetIndex name) : Engine Value) :=
    Signs.bears_quietly hr (idles_targetIndex name) (Signs.bare_targetIndex name)
  have hminds := (Signs.minds_of_bears hr hlook w hf.1 h).1
  have hcount := (winds_of_rests (rests_quietly (idles_targetIndex name)) w hf.1).2.2.trans_lt hf.2
  have hlist₁ := keeps_lists (aside_quietly (aside_targetIndex name)) w hlist
  apply wp_lookup
  · intro goal c hrun
    rw [quietly_ret hrun] at hminds hcount hlist₁
    have hk : B.Knows { w with now := c } goal ∨ goal = mtTable :=
      (Signs.lookup_leads hf.1 hrun).imp_left Signs.Leads.knows
    have hbring : ∀ o w, Called B w o → (B.freshSigns hg hr hE hwatch).Facts w → B.Lists w →
        wp (bringUpToDate E E.stack o) (B.Listened w o) w := fun o w hc hf hlist =>
      bringUpToDate_lists E.stack hc hf hlist
    apply wp_bind_of (visit_lists hbring hminds.1 hcount hminds.2 hlist₁ hk)
    · rintro r w₁ ⟨hw,_⟩
      refine (keeps_lists ?_).wp hw.1
      refine moves_bind (aside_goalStatus goal r) fun s => moves_bind (aside_reportGoal goal name s) fun _ => ?_
      exact moves_bind aside_core fun c => moves_ite (moves_pure _) (moves_pure _)
    · exact fun _ _ hw => hw.1.1
    · exact fun _ hw => hw.1.1
  · exact fun e => hlist₁

/-- One pass of the main loop. -/
theorem goalPass_lists (hf : B.Free w) (h : (B.freshSigns hg hr hE hwatch).Facts w) (hlist : B.Lists w) :
    wp (goalPass E) (fun _ w' => B.Lists w') w := by
  have hm : Moves (Signs.Bears (B.freshSigns hg hr hE hwatch) [])
      (quietly (enumerate E w.now.goals) : Engine (List String)) :=
    Signs.bears_quietly hr (idles_enumerate E _) (Signs.bare_enumerate _)
  have hback := back_of_winds (B := B) (winds_of_rests (rests_quietly (idles_enumerate E w.now.goals))) hf
  have hminds := Signs.minds_of_bears hr hm w hf.1 h
  have hlist₁ := keeps_lists (aside_quietly (aside_enumerate (E := E) w.now.goals)) w hlist
  unfold goalPass
  rw [wp_bind_core]
  apply wp_bind_of (R := fun o w' => B.Back o w' ∧ Signs.Facts (B.freshSigns hg hr hE hwatch) w' ∧ B.Lists w')
    ⟨hback,hminds.1.2,hlist₁⟩
  · rintro order w₁ ⟨hback,hf₁,hlist₁⟩
    have hloop : wp (forEach (goalStep E) order 0) (fun _ w' => B.Lists w') w₁ := by
      apply wp_forEach fun _ _ w' => B.Free w' ∧ Signs.Pursued (B.freshSigns hg hr hE hwatch) ∅ w' ∧ B.Lists w'
      · rintro name l k w' ⟨hf,hp,hlist⟩
        apply wp_mono (wp_and (wp_and (goalStep_ended name k hf) (Signs.goalStep_pursued hr hf hp name k))
          (goalStep_lists hf hp.facts hlist name k))
        rintro ((k' | k' | x) | e | _) w'' ⟨⟨hend,hret⟩,hlist'⟩
        · exact ⟨hend,hret.2.1,hlist'⟩
        · exact hlist'
        · cases x
        · exact hlist'
        · exact hlist'
      · exact fun _ _ hw => hw.2.2
      · exact ⟨⟨hback.1,hback.2 ⟨_,rfl⟩⟩,⟨hf₁,by simp⟩,hlist₁⟩
    apply wp_bind_of hloop
    · rintro (k | x) w₂ hw
      · refine (keeps_lists (moves_bind (moves_bind aside_core fun c => ?_) fun _ => moves_pure _)).wp hw
        exact moves_ite (aside_dispatch_drain_exit _).1 (moves_pure _)
      · cases x
    · exact fun _ _ hw => hw
    · exact fun _ hw => hw
  · exact fun _ _ hw => hw.2.2
  · exact fun _ hw => hw.2.2

theorem updateGoalsP_lists (hf : B.Free w) (h : (B.freshSigns hg hr hE hwatch).Facts w) (hlist : B.Lists w) :
    wp (updateGoalsP E) (fun _ w' => B.Lists w') w := by
  unfold updateGoalsP
  have hback := back_of_winds (B := B) winds_defaultGoals hf
  have hminds := Signs.minds_defaultGoals hr w hf.1 h
  apply wp_bind_of (R := fun o w' => B.Back o w' ∧ Signs.Facts (B.freshSigns hg hr hE hwatch) w' ∧ B.Lists w')
    ⟨hback,hminds.1.2,keeps_lists aside_defaultGoals w hlist⟩
  · rintro _ w₁ ⟨hback,hf₁,hlist₁⟩
    have hloop : wp (repeatWhile (goalPass E) E.fuel) (fun _ w' => B.Lists w') w₁ := by
      apply wp_repeatWhile fun w' => B.Free w' ∧ Signs.Pursued (B.freshSigns hg hr hE hwatch) ∅ w' ∧ B.Lists w'
      · rintro w' ⟨hf,hp,hlist⟩
        apply wp_mono (wp_and (wp_and (goalPass_back hf) (Signs.goalPass_pursued hr hf hp))
          (goalPass_lists hf hp.facts hlist))
        rintro (b | e | _) w'' ⟨⟨hback,hret⟩,hlist'⟩
        · cases b
          · exact hlist'
          · exact ⟨⟨hback.1,hback.2 ⟨_,rfl⟩⟩,hret.2.1,hlist'⟩
        · exact hlist'
        · exact hlist'
      · exact fun _ hw => hw.2.2
      · exact ⟨⟨hback.1,hback.2 ⟨_,rfl⟩⟩,⟨hf₁,by simp⟩,hlist₁⟩
    apply wp_bind_of hloop
    · intro _ w₂ hw
      refine (keeps_lists (moves_bind aside_core fun c => moves_ite ?_ (moves_pure _))).wp hw
      exact moves_bind (aside_message _) fun _ => moves_raise _
    · exact fun _ _ hw => hw
    · exact fun _ hw => hw
  · exact fun _ _ hw => hw.2.2
  · exact fun _ hw => hw.2.2

end

/-- The lists are right to the end of every run. -/
theorem updateGoals_lists (hg : B.origin.FileGraph) (hr : B.Rooted) (hE : B.origin.Confined E)
    (hwatch : ∀ k ∈ Core.watched, k ∈ B.guarded) (hnone : B.origin.Lacks "deps_newer") :
    B.Lists (updateGoals E ⟨B.origin,[]⟩).2 := by
  let S := B.freshSigns hg hr hE hwatch
  have hf := free_origin B
  have hi : B.origin.Idles B.guarded { B.origin with deleteOnError := ∅ } :=
    Core.idles_of_heap rfl rfl rfl rfl rfl rfl rfl
  have hm : B.origin.Bare B.guarded { B.origin with deleteOnError := ∅ } := Core.bare_of_heap rfl rfl rfl
  have h := (Signs.facts_origin S hr).move hr hf.1.toLedger hi hm.firm (S.sees hf.1.toLedger S.first hi.toStays hm.sees)
  have hfree : B.Free ⟨{ B.origin with deleteOnError := ∅ },[]⟩ := ⟨hf.1.idles hi,hf.2⟩
  have hlist : B.Lists ⟨{ B.origin with deleteOnError := ∅ },[]⟩ :=
    (Lists.first hnone).step ⟨Core.aside_of_heap rfl rfl,[],rfl,by simp⟩
  have hrun : wp (updateGoals E) (fun _ w => B.Lists w) ⟨B.origin,[]⟩ := by
    unfold updateGoals
    rw [wp_bind_modify_quietly]
    have hatt : wp (Prog.attempt (updateGoalsP E)) (fun _ w => B.Lists w) ⟨{ B.origin with deleteOnError := ∅ },[]⟩ := by
      rw [wp_attempt]
      apply wp_mono (updateGoalsP_lists hfree h hlist)
      rintro (_ | _ | _) w hw <;> exact hw
    apply wp_bind_of hatt
    · rintro (e | _) w hw
      · refine (keeps_lists (moves_bind aside_core fun c => moves_ite (moves_raise _) ?_)).wp hw
        split
        · exact moves_ite (aside_quietly (moves_raise _)) (moves_raise _)
        · exact moves_raise _
        · exact moves_raise _
      · exact hw
    · exact fun _ _ hw => hw
    · exact fun _ hw => hw
  exact hrun

end Build

/-- In a graph of file and phony targets whose commands change no other files a job starts with the right
list exactly if its file is there, or each dependency has been updated or has been written since the launch. -/
theorem listsNewer_at_start (E : Env) (hslots : 1 ≤ E.slots) (c : Core) (hc : c.FileGraph)
    (hnone : c.Lacks "deps_newer") (hE : c.Confined E) :
    ∀ x ∈ (updateGoals E ⟨c,[]⟩).2.trace, ∀ o i, x.1 = .start o i →
      (x.2.ListsNewer o ↔ x.2.Existing o ∨ ∀ k ∈ x.2.deps o, x.2.Updated k ∨ x.2.AfterLaunch k) := by
  have hr := hc.rooted hslots
  have hlists := Build.updateGoals_lists (B := hc.build hslots) hc hr hE (hc.guarded hslots) hnone
  exact fun x hx o i hs => (hlists.starts x hx o i hs).2

theorem listsNewer_at_start_lib : ∃ x ∈ (updateGoals Env.touching ⟨Core.withLib,[]⟩).2.trace, x.1 = .start 3 2 ∧
    x.2.ListsNewer 3 ∧
    (x.2.ListsNewer 3 ↔ x.2.Existing 3 ∨ ∀ k ∈ x.2.deps 3, x.2.Updated k ∨ x.2.AfterLaunch k) := by
  have hstart : ∃ x ∈ (updateGoals Env.touching ⟨Core.withLib,[]⟩).2.trace, x.1 = .start 3 2 ∧
      x.2.deps 3 = {"lib"} ∧ x.2.registry "lib" = .obj 4 ∧ x.2.rawget 4 "status" = Status.updated.toValue := by
    decide +kernel
  obtain ⟨x,hx,hs,hdeps,hlib,hstatus⟩ := hstart
  have hiff := listsNewer_at_start Env.touching (by decide) Core.withLib fileGraph_withLib
    (lacks_withLib _ (by decide)) (tidy_touching.confined _) x hx 3 2 hs
  refine ⟨x,hx,hs,hiff.mpr (.inr fun k hk => .inl ?_),hiff⟩
  rw [hdeps] at hk
  rw [Finset.mem_singleton.mp hk]
  exact ⟨4,hlib,hstatus⟩

/-- `app` is not there, and depends on a file that is older than the launch. -/
def Core.withSource : Core := { Core.withLib.rawset 3 "deps" (.names {"app.c"}) with
  files := fun p => if p = "app.c" then .file (-5) else .absent }

theorem fileGraph_withSource : Core.withSource.FileGraph :=
  (fileGraph_withLib.withSources (by decide) (by decide) fun k hk => by
    rw [Finset.mem_singleton.mp hk]
    rfl).withFiles _

theorem lacks_withSource : Core.withSource.Lacks "deps_newer" := by
  intro o
  change (Core.withLib.rawset 3 "deps" (.names {"app.c"})).rawget o "deps_newer" = .nil
  rw [Core.rawget_rawset,if_neg (by simp)]
  exact lacks_withLib _ (by decide) o

/-- The list of `app` is empty when its command starts. -/
theorem source_not_listed : Core.withSource.FileGraph ∧ Core.withSource.Lacks "deps_newer" ∧
    Core.withSource.Confined Env.touching ∧ ¬StartsRight Env.touching Core.withSource := by
  refine ⟨fileGraph_withSource,lacks_withSource,tidy_touching.confined _,fun h => ?_⟩
  have hstart : ∃ x ∈ (updateGoals Env.touching ⟨Core.withSource,[]⟩).2.trace, x.1 = .start 3 1 ∧
      x.2.attr 3 "deps_newer" = .names ∅ ∧ "app.c" ∈ x.2.deps 3 ∧ x.2.rawget 3 "name" = .str "app" ∧
      x.2.files.exists "app" = false := by decide +kernel
  obtain ⟨x,hx,hs,hlist,hdep,hname,habsent⟩ := hstart
  obtain ⟨s,hs',hiff⟩ := h x hx 3 1 hs
  obtain rfl := Value.names.inj (hlist.symm.trans hs')
  have hmem := (hiff "app.c").mpr ⟨hdep,.inr fun hex => ?_⟩
  · cases hmem
  · obtain ⟨_,k,hk,hfile⟩ := hex
    obtain rfl := Value.str.inj (hname.symm.trans hk)
    rw [habsent] at hfile
    cases hfile

end Presto

import Presto.Engine.Order

/-! With `-q` a run tells whether the goals are up to date, and starts nothing. -/
namespace Presto
open Program Traced

/-- No job is started. -/
def Unstarted (w w' : World) : Prop := starts w' = starts w

instance : IsPreorder World Unstarted where
  refl _ := rfl
  trans _ _ _ h h' := Eq.trans h' h

section
variable {α : Type} {E : Env}

theorem unstarted_of_emits {w w' : World} (h : Emits (fun e => ¬e.Starts) w w') : Unstarted w w' := by
  obtain ⟨l,hl,hno⟩ := h
  have hnone : l.filterMap (fun x => x.1.started) = [] :=
    List.filterMap_eq_nil_iff.mpr fun x hx => Event.started_eq_none (hno x hx)
  unfold Unstarted starts
  rw [hl,List.filterMap_append,hnone,List.nil_append]

theorem unstarted_of_moves {m : Engine α} (h : Moves (Emits fun e => ¬e.Starts) m) : Moves Unstarted m :=
  h.mono fun _ _ => unstarted_of_emits

theorem unstarted_quietly (m : Lua α) : Moves Unstarted (quietly m) := unstarted_of_moves (emits_quietly m)

theorem unstarted_core : Moves Unstarted core := unstarted_of_moves emits_core

theorem unstarted_defaultGoals : Moves Unstarted defaultGoals := by
  refine moves_bind unstarted_core fun c => moves_ite (moves_pure _) (moves_ite ?_ ?_)
  · exact unstarted_of_moves (emits_raiseError _)
  · refine moves_bind (unstarted_quietly _) fun o => ?_
    split
    · exact unstarted_quietly _
    · exact unstarted_of_moves (emits_raiseError _)

section
variable (hq : E.flags.question = true)
include hq

/-- A target that must be built raises an error. -/
theorem calm_finishTargetUpdate (self : ObjId) (b : Pass) : Serves Calm (finishTargetUpdate E self b) := by
  refine serves_bind calm_core fun c => serves_ite (serves_pure _) (serves_ite ?_ (serves_ite ?_ (serves_pure _)))
  · exact serves_bind (calm_markError self) fun _ => serves_bind calm_core fun c => serves_pure _
  · rw [if_pos hq]
    exact calm_raiseError _

theorem unstarted_visit (goal : ObjId) : Moves Unstarted (visit E (bringUpToDate E E.stack) goal) := by
  have hbring := serves_bringUpToDate_of E (fun _ _ => id) (calm_finishTargetUpdate hq) E.stack
  exact (serves_visit E (fun _ _ => id) hbring goal).moves.mono fun _ _ h => h.starts

theorem unstarted_goalStep (name : String) (k : ℕ) : Moves Unstarted (goalStep E name k) := by
  refine moves_bind (unstarted_quietly _) fun v => moves_bind (unstarted_quietly _) fun goal => ?_
  refine moves_bind (unstarted_visit hq goal) fun r => ?_
  refine moves_bind (unstarted_of_moves (emits_goalStatus goal r)) fun status => ?_
  refine moves_bind (unstarted_of_moves (emits_reportGoal (fun _ => id) goal name status)) fun _ => ?_
  exact moves_bind unstarted_core fun c => moves_ite (moves_pure _) (moves_pure _)

theorem unstarted_goalPass : Moves Unstarted (goalPass E) := by
  refine moves_bind unstarted_core fun c => moves_bind (unstarted_quietly _) fun order => ?_
  refine moves_bind (moves_forEach (unstarted_goalStep hq) order 0) fun x => ?_
  rcases x with k | e
  · refine moves_bind (moves_bind unstarted_core fun c => moves_ite ?_ (moves_pure _)) fun _ => moves_pure _
    exact unstarted_of_moves (emits_dispatch_drain_exit E (fun _ => id) E.fuel).1
  · cases e

theorem unstarted_updateGoalsP : Moves Unstarted (updateGoalsP E) := by
  refine moves_bind unstarted_defaultGoals fun _ => ?_
  refine moves_bind (moves_repeatWhile (unstarted_goalPass hq) E.fuel) fun _ => ?_
  refine moves_bind unstarted_core fun c => moves_ite ?_ (moves_pure _)
  apply unstarted_of_moves
  exact moves_bind (emits_message (fun _ => id) _) fun _ => emits_raiseError _

/-- With `-q` no job is started, whatever the targets and the commands are. -/
theorem unstarted_updateGoals : Moves Unstarted (updateGoals E) := by
  refine moves_bind (unstarted_quietly _) fun _ => moves_bind (moves_attempt (unstarted_updateGoalsP hq)) fun r => ?_
  cases r with
  | ok _ => exact moves_pure _
  | error e =>
    refine moves_bind unstarted_core fun c => moves_ite (unstarted_of_moves (emits_raiseError _)) ?_
    split
    · exact moves_ite (unstarted_quietly _) (unstarted_of_moves (emits_raiseError _))
    · exact unstarted_of_moves (emits_raiseError _)
    · exact unstarted_of_moves (emits_raiseError _)

end
end

namespace Build
variable {E : Env} {B : Build E} {w : World} {n : String}

/-- What is done although nothing was started is up to date. -/
theorem upToDate_of_unstarted {hg : B.origin.FileGraph} {hr : B.Rooted} {hE : B.origin.Confined E}
    {hwatch : ∀ k ∈ Core.watched, k ∈ B.guarded} (hA : E.flags.alwaysMake = false)
    (hf : (B.freshSigns hg hr hE hwatch).Facts w) (hs : starts w = [])
    (hfind : ∀ n, B.origin.Mentions n → B.origin.Findable n)
    (hd : (B.freshSigns hg hr hE hwatch).done w.now n) (hn : B.origin.Mentions n) : B.origin.UpToDate n := by
  induction hd with
  | source hnil hsource => exact .source (hfind _ hn) hnil (hsource hA)
  | @built _ o _ hstatus =>
    obtain ⟨i,hi⟩ := (hf.touched o (.inr hstatus)).1
    rw [hs] at hi
    cases hi
  | @idle _ o ht hstill _ ih =>
    have hfresh : B.origin.Fresh E.flags.alwaysMake o := hstill
    obtain ⟨_,hold,_⟩ := hfresh
    obtain ⟨hex,hdeps⟩ := hold hA
    exact .target (hfind _ hn) ht.1 ht.2 hex hdeps fun k hk => ih k hk (.inr ⟨_,o,ht.1,ht.2,hk⟩)

/-- A run without `-B` does nothing and returns if and only if all goals are up to date. -/
theorem unstarted_iff_upToDate (hg : B.origin.FileGraph) (hr : B.Rooted) (hE : B.origin.Confined E)
    (hwatch : ∀ k ∈ Core.watched, k ∈ B.guarded) (hA : E.flags.alwaysMake = false) (hslots : 1 ≤ E.slots)
    (hstack : B.origin.next < E.stack) (hfuel : 2 ≤ E.fuel) (hfailure : B.origin.failure = false)
    (hfind : ∀ n, B.origin.Mentions n → B.origin.Findable n) :
    ((updateGoals E ⟨B.origin,[]⟩).1 = .ret () ∧ starts (updateGoals E ⟨B.origin,[]⟩).2 = []) ↔
      B.origin.HasGoals ∧ ∀ g ∈ B.origin.wanted, B.origin.UpToDate g := by
  constructor
  · intro h
    obtain ⟨hret,hs⟩ := h
    obtain ⟨hfacts,hdone⟩ := (B.freshSigns hg hr hE hwatch).updateGoals_done hr
    exact ⟨hasGoals_of_updateGoals hret,fun g hgoal =>
      upToDate_of_unstarted hA hfacts hs hfind (hdone hret g hgoal) (.inl hgoal)⟩
  · intro h
    obtain ⟨hgoals,hup⟩ := h
    exact updateGoals_quiet hg hr hwatch hA hslots hstack hfuel hgoals hfailure hg.unfailed hup

end Build

/-- With `-q` a run starts nothing, and it returns without an error if and only if all goals are up to date. -/
theorem question_answers (E : Env) (hslots : 1 ≤ E.slots) (c : Core) (hc : c.FileGraph) (hE : c.Confined E)
    (hq : E.flags.question = true) (hA : E.flags.alwaysMake = false) (hstack : c.next < E.stack) (hfuel : 2 ≤ E.fuel)
    (hfailure : c.failure = false) (hfind : ∀ n, c.Mentions n → c.Findable n) :
    starts (updateGoals E ⟨c,[]⟩).2 = [] ∧
      ((updateGoals E ⟨c,[]⟩).1 = .ret () ↔ c.HasGoals ∧ ∀ g ∈ c.wanted, c.UpToDate g) := by
  have hs : starts (updateGoals E ⟨c,[]⟩).2 = [] := unstarted_updateGoals hq ⟨c,[]⟩
  have hiff := Build.unstarted_iff_upToDate (B := hc.build hslots) hc (hc.rooted hslots) hE (hc.guarded hslots) hA
    hslots hstack hfuel hfailure hfind
  exact ⟨hs,⟨fun hret => hiff.mp ⟨hret,hs⟩,fun h => (hiff.mpr h).1⟩⟩

/-- The commands of `Env.touching`, with `-q`. -/
def Env.asking : Env := { Env.touching with flags := { Env.touching.flags with question := true } }

/-- Both files are there, and of one age. -/
def Core.withBoth : Core := { Core.withLib with files := fun p => if p = "app" ∨ p = "lib" then .file 1 else .absent }

theorem fileGraph_withBoth : Core.withBoth.FileGraph := fileGraph_withLib.withFiles _

/-- When both files are there the answer is yes. -/
theorem question_answers_both : (updateGoals Env.asking ⟨Core.withBoth,[]⟩).1 = .ret () ∧
    starts (updateGoals Env.asking ⟨Core.withBoth,[]⟩).2 = [] ∧
    ((updateGoals Env.asking ⟨Core.withBoth,[]⟩).1 = .ret () ↔
      Core.withBoth.HasGoals ∧ ∀ g ∈ Core.withBoth.wanted, Core.withBoth.UpToDate g) :=
  ⟨by decide +kernel,question_answers Env.asking (by decide) Core.withBoth fileGraph_withBoth
    (tidy_touching.confined _) rfl rfl (by decide) (by decide) rfl fun _ => findable_withLib⟩

/-- A run with `-q` returns without an error if and only if a build would do so that starts nothing, whatever its
slots, its orders and `-k` are. -/
theorem question_predicts (E E' : Env) (hslots : 1 ≤ E.slots) (hslots' : 1 ≤ E'.slots) (c : Core) (hc : c.FileGraph)
    (hE : c.Confined E) (hE' : c.Confined E') (hq : E.flags.question = true) (hA : E.flags.alwaysMake = false)
    (hA' : E'.flags.alwaysMake = false) (hstack : c.next < E.stack) (hstack' : c.next < E'.stack) (hfuel : 2 ≤ E.fuel)
    (hfuel' : 2 ≤ E'.fuel) (hfailure : c.failure = false) (hfind : ∀ n, c.Mentions n → c.Findable n) :
    (updateGoals E ⟨c,[]⟩).1 = .ret () ↔
      (updateGoals E' ⟨c,[]⟩).1 = .ret () ∧ starts (updateGoals E' ⟨c,[]⟩).2 = [] := by
  have hs : starts (updateGoals E ⟨c,[]⟩).2 = [] := unstarted_updateGoals hq ⟨c,[]⟩
  have hiff := Build.unstarted_iff_upToDate (B := hc.build hslots) hc (hc.rooted hslots) hE (hc.guarded hslots) hA
    hslots hstack hfuel hfailure hfind
  have hiff' := Build.unstarted_iff_upToDate (B := hc.build hslots') hc (hc.rooted hslots') hE' (hc.guarded hslots') hA'
    hslots' hstack' hfuel' hfailure hfind
  exact ⟨fun hret => hiff'.mpr (hiff.mp ⟨hret,hs⟩),fun h => (hiff.mpr (hiff'.mp h)).1⟩

theorem question_predicts_both : (updateGoals Env.asking ⟨Core.withBoth,[]⟩).1 = .ret () ∧
    ((updateGoals Env.asking ⟨Core.withBoth,[]⟩).1 = .ret () ↔
      (updateGoals Env.touching ⟨Core.withBoth,[]⟩).1 = .ret () ∧
        starts (updateGoals Env.touching ⟨Core.withBoth,[]⟩).2 = []) :=
  ⟨by decide +kernel,question_predicts Env.asking Env.touching (by decide) (by decide) Core.withBoth fileGraph_withBoth
    (tidy_touching.confined _) (tidy_touching.confined _) rfl rfl rfl (by decide)
    (by decide) (by decide) (by decide) rfl fun _ => findable_withLib⟩

end Presto

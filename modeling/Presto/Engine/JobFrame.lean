import Presto.Engine.Books
import Presto.Registry.Frame

/-! The parts of `bring_up_to_date` that start no job leave the jobs, the goals and the files
alone, whatever the targets are. -/
namespace Presto
open Program Traced

namespace Core

/-- Only tables are written, and traversals counted. -/
structure Calm (c c' : Core) : Prop where
  running : c'.running = c.running
  count : c'.count = c.count
  goals : c'.goals = c.goals
  files : c'.files = c.files
  failure : c'.failure = c.failure
  pos : c'.pos = c.pos

instance : IsPreorder Core Calm where
  refl _ := ⟨rfl,rfl,rfl,rfl,rfl,rfl⟩
  trans _ _ _ h h' := ⟨h'.running.trans h.running,h'.count.trans h.count,h'.goals.trans h.goals,
    h'.files.trans h.files,h'.failure.trans h.failure,h'.pos.trans h.pos⟩

theorem calm_rawset (c : Core) (o : ObjId) (key : String) (v : Value) : c.Calm (c.rawset o key v) :=
  ⟨rfl,rfl,rfl,rfl,rfl,rfl⟩

end Core

section Lua
variable (E : Env)

theorem calm_targetIndex (key : String) : Serves Core.Calm (targetIndex key) := by
  refine serves_bind (serves_gets id) fun c => serves_ite (serves_pure _) (serves_ite (serves_raise _)
    (serves_ite (serves_pure _) ?_))
  exact fun c => ⟨⟨rfl,rfl,rfl,rfl,rfl,rfl⟩,by rintro ⟨⟩⟩

theorem calm_asTable (v : Value) : Serves Core.Calm (asTable v) := by
  cases v <;> first | exact serves_pure _ | exact serves_raise _

theorem calm_readDeps (o : ObjId) : Serves Core.Calm (readDeps o) := by
  refine serves_bind (serves_gets id) fun c => ?_
  split
  · exact serves_pure _
  · exact serves_raise _

theorem calm_enumerate (s : Finset String) : Serves Core.Calm (enumerate E s) :=
  fun _ => ⟨⟨rfl,rfl,rfl,rfl,rfl,rfl⟩,by rintro ⟨⟩⟩

theorem calm_checkPath (v : Value) : Serves Core.Calm (checkPath v) := by
  cases v <;> first | exact serves_pure _ | exact serves_raise _

theorem calm_callGetter (o : ObjId) (getter : String) : Serves Core.Calm (callGetter E o getter) := by
  refine serves_bind (serves_gets id) fun c => ?_
  split
  · refine serves_bind (serves_gets id) fun c => serves_ite ?_ (serves_pure _)
    exact serves_bind (calm_checkPath _) fun _ => serves_pure _
  · refine serves_bind (serves_gets id) fun c => ?_
    exact serves_bind (calm_checkPath _) fun _ => serves_pure _
  · exact serves_ofExcept _
  · exact serves_raise _

theorem calm_readCached (key getter : String) (o : ObjId) :
    Serves Core.Calm (readCached E key getter o) := by
  refine serves_bind (serves_gets id) fun c => ?_
  split
  · exact serves_pure _
  · refine serves_ite ?_ (serves_pure _)
    refine serves_bind (calm_callGetter E _ getter) fun v => ?_
    exact serves_bind (serves_modify fun c => c.calm_rawset _ _ _) fun _ => serves_pure _

theorem calm_targetNewindex (key : String) (v : Value) : Serves Core.Calm (targetNewindex key v) := by
  have hregister : ∀ o, Serves Core.Calm (Prog.modify fun c => c.register key o : Lua Unit) :=
    fun o => serves_modify fun c => ⟨rfl,rfl,rfl,rfl,rfl,rfl⟩
  refine serves_bind (serves_gets id) fun c => ?_
  refine serves_ite (serves_modify fun c => ⟨rfl,rfl,rfl,rfl,rfl,rfl⟩) (serves_ite (serves_raise _)
    (serves_ite (serves_raise _) ?_))
  split
  · exact fun c => ⟨⟨rfl,rfl,rfl,rfl,rfl,rfl⟩,by rintro ⟨⟩⟩
  · exact serves_ite (hregister _) (serves_raise _)
  · exact serves_raise _

end Lua

/-- Nothing is started, and only tables are written. -/
structure Calm (w w' : World) : Prop extends Core.Calm w.now w'.now where
  starts : starts w' = starts w

instance : IsPreorder World Calm where
  refl w := ⟨refl_of Core.Calm w.now,rfl⟩
  trans _ _ _ h h' := ⟨trans_of Core.Calm h.toCalm h'.toCalm,h'.starts.trans h.starts⟩

section
variable {α : Type} (E : Env)

theorem calm_quietly {m : Lua α} (h : Serves Core.Calm m) : Serves Calm (quietly m) :=
  fun w => ⟨⟨(h w.now).1,rfl⟩,(h w.now).2⟩

theorem calm_core : Serves Calm core := serves_gets _

theorem calm_raiseError (msg : String) : Serves Calm (raiseError msg : Engine α) := serves_raise _

theorem calm_emit {e : Event} (he : ¬e.Starts) : Serves Calm (Prog.emit e : Engine Unit) :=
  fun w => ⟨⟨refl_of Core.Calm w.now,starts_emit he⟩,by rintro ⟨⟩⟩

theorem calm_setField (o : ObjId) (key : String) (v : Value) : Serves Calm (setField o key v) :=
  calm_quietly (serves_modify fun c => c.calm_rawset o key v)

theorem calm_message (v : Value) : Serves Calm (message v) := by
  unfold message
  split
  · exact calm_emit id
  · exact calm_emit id
  · exact calm_raiseError _

theorem calm_messageIf (v : Value) : Serves Calm (messageIf v) := serves_ite (calm_message v) (serves_pure _)

theorem calm_concatText (v : Value) : Serves Calm (concatText v) := by
  unfold concatText
  split
  · exact serves_pure _
  · exact serves_pure _
  · exact calm_raiseError _

theorem calm_lessThan (u v : Value) : Serves Calm (lessThan u v) := by
  unfold lessThan
  split
  · exact serves_pure _
  · exact serves_pure _
  · exact calm_raiseError _

theorem calm_markError (o : ObjId) : Serves Calm (markError o) :=
  serves_bind (calm_setField o _ _) fun _ => calm_emit id

theorem calm_ensureDepsNewer (self : ObjId) : Serves Calm (ensureDepsNewer self) :=
  serves_bind calm_core fun _ => serves_ite (serves_pure _) (calm_setField self _ _)

theorem calm_markNewer (self : ObjId) (name : String) : Serves Calm (markNewer self name) := by
  refine serves_bind calm_core fun c => ?_
  split
  · exact calm_setField _ _ _
  · exact calm_setField _ _ _
  · exact calm_quietly (calm_targetNewindex name _)
  · exact serves_pure _
  · exact serves_pure _
  · exact calm_raiseError _

theorem calm_prune (self : ObjId) (name : String) : Serves Calm (prune self name) :=
  serves_bind (calm_quietly (calm_readDeps self)) fun _ => calm_setField self _ _

theorem calm_missing (self : ObjId) : Serves Calm (missing E self) :=
  serves_ite (serves_pure _)
    (serves_bind (calm_quietly (calm_readCached E _ _ self)) fun _ => serves_pure _)

theorem calm_unbuildable (self : ObjId) : Serves Calm (unbuildable E self) :=
  serves_ite (serves_bind (calm_quietly (calm_readCached E _ _ self)) fun _ => serves_pure _)
    (serves_pure _)

theorem calm_compareDep (self dep : ObjId) (name : String) (b : Pass) :
    Serves Calm (compareDep E self dep name b) := by
  refine serves_bind (calm_quietly (calm_readCached E _ _ self)) fun s => ?_
  refine serves_bind (calm_quietly (calm_readCached E _ _ dep)) fun t => ?_
  refine serves_bind (calm_lessThan s t) fun older => serves_ite ?_ (serves_pure _)
  exact serves_bind (calm_markNewer self name) fun _ => serves_pure _

theorem calm_failDep (self dep : ObjId) (name : String) (b : Pass) :
    Serves Calm (failDep E self dep name b) := by
  refine serves_bind calm_core fun c => serves_bind (calm_concatText _) fun depName => ?_
  refine serves_bind (calm_message _) fun _ => serves_bind (calm_messageIf _) fun _ => serves_ite ?_ ?_
  · refine serves_bind (calm_prune self name) fun _ => ?_
    exact serves_bind (calm_setField self _ _) fun _ => serves_pure _
  · exact serves_bind (calm_markError self) fun _ => serves_bind calm_core fun _ => serves_pure _

theorem calm_useDep (self dep : ObjId) (name : String) (b : Pass) (status : Value) :
    Serves Calm (useDep E self dep name b status) := by
  refine serves_ite ?_ (serves_ite (calm_compareDep E self dep name b)
    (serves_ite (calm_failDep E self dep name b) (serves_ite ?_ ?_)))
  · exact serves_bind (calm_markNewer self name) fun _ => serves_pure _
  · exact serves_bind calm_core fun c => serves_ite (serves_pure _) (serves_pure _)
  · exact serves_bind (calm_concatText status) fun _ => calm_raiseError _

theorem calm_noRule (self : ObjId) : Serves Calm (noRule self) := by
  refine serves_bind (calm_markError self) fun _ => serves_bind calm_core fun c => ?_
  refine serves_bind (calm_concatText _) fun name => ?_
  exact serves_bind (calm_setField self _ _) fun _ => calm_raiseError _

theorem serves_visit {R : World → World → Prop} [IsPreorder World R]
    (hcalm : ∀ w w', Calm w w' → R w w') {bring : ObjId → Engine Value}
    (hbring : ∀ o, Serves R (bring o)) (o : ObjId) : Serves R (visit E bring o) := by
  have hcall : Serves R (callBring E bring o) := by
    refine serves_bind (calm_core.mono hcalm) fun c => ?_
    split
    · exact serves_ite (hbring o) ((calm_quietly (serves_ofExcept _)).mono hcalm)
    · exact (calm_raiseError _).mono hcalm
  refine serves_bind (serves_attempt hcall) fun r => ?_
  cases r with
  | ok v => exact serves_pure _
  | error e => exact serves_bind ((calm_emit id).mono hcalm) fun _ => serves_pure _

/-- A relation that calm code keeps is kept by `bring_up_to_date` if the end of a visit keeps it. -/
theorem serves_bringUpToDate_of {R : World → World → Prop} [IsPreorder World R]
    (hcalm : ∀ w w', Calm w w' → R w w') (hfinish : ∀ o b, Serves R (finishTargetUpdate E o b)) (n : ℕ)
    (self : ObjId) : Serves R (bringUpToDate E n self) := by
  induction n generalizing self with
  | zero => exact (calm_raiseError _).mono hcalm
  | succ n ih =>
    have hvisit := serves_visit E hcalm ih
    have hdep : ∀ name b, Serves R (depStep E (bringUpToDate E n) self name b) := fun name b =>
      serves_bind ((calm_quietly (calm_targetIndex name)).mono hcalm) fun v =>
        serves_bind ((calm_quietly (calm_asTable v)).mono hcalm) fun dep =>
          serves_bind (hvisit dep) fun r => (calm_useDep E self dep name b _).mono hcalm
    refine serves_bind (calm_core.mono hcalm) fun c => serves_ite (serves_pure _) ?_
    refine serves_bind ((calm_ensureDepsNewer self).mono hcalm) fun _ => ?_
    refine serves_bind ((calm_missing E self).mono hcalm) fun mustBuild => ?_
    refine serves_bind ((calm_quietly (calm_readDeps self)).mono hcalm) fun deps => ?_
    refine serves_bind ((calm_quietly (calm_enumerate E deps)).mono hcalm) fun order => ?_
    refine serves_bind (serves_forEach hdep _ _) fun x => ?_
    rcases x with b | v
    · exact hfinish self b
    · exact serves_pure _

/-- A relation that calm code keeps is kept by `bring_up_to_date` if starting a job keeps it. -/
theorem serves_bringUpToDate {R : World → World → Prop} [IsPreorder World R]
    (hcalm : ∀ w w', Calm w w' → R w w') (hstart : ∀ o, Serves R (jobsStart E o)) (n : ℕ)
    (self : ObjId) : Serves R (bringUpToDate E n self) := by
  apply serves_bringUpToDate_of E hcalm
  intro o b
  refine serves_bind (calm_core.mono hcalm) fun c => serves_ite (serves_pure _) (serves_ite ?_
    (serves_ite (serves_ite ?_ (serves_ite (hstart o) ?_)) (serves_pure _)))
  · exact serves_bind ((calm_markError o).mono hcalm) fun _ =>
      serves_bind (calm_core.mono hcalm) fun c => serves_pure _
  · exact (calm_raiseError _).mono hcalm
  · refine serves_bind ((calm_unbuildable E o).mono hcalm) fun b => ?_
    exact serves_ite ((calm_noRule o).mono hcalm) (serves_pure _)

end
end Presto

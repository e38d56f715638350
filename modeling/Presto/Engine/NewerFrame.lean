import Presto.Engine.JobFrame

/-! What leaves the lists of newer dependencies alone: everything but `bring_up_to_date` itself,
and there all but the two places that write them. -/
namespace Presto
open Program Traced

namespace Core
variable {c : Core}

/-- No list of newer dependencies changes, and what has failed has failed. -/
structure Aside (c c' : Core) : Prop where
  next : c.next ≤ c'.next
  newer : ∀ o < c.next, c'.rawget o "deps_newer" = c.rawget o "deps_newer"
  failed : ∀ o < c.next, c.rawget o "dep_status" = Status.error.toValue →
    c'.rawget o "dep_status" = Status.error.toValue

instance : IsPreorder Core Aside where
  refl _ := ⟨le_rfl,fun _ _ => rfl,fun _ _ => id⟩
  trans _ _ _ h h' := ⟨h.next.trans h'.next,fun o ho => (h'.newer o (ho.trans_le h.next)).trans (h.newer o ho),
    fun o ho hf => h'.failed o (ho.trans_le h.next) (h.failed o ho hf)⟩

theorem aside_of_raw {c' : Core} (hnext : c.next ≤ c'.next) (hraw : ∀ o < c.next, ∀ k ∈ ["deps_newer","dep_status"],
    c'.rawget o k = c.rawget o k) : c.Aside c' :=
  ⟨hnext,fun o ho => hraw o ho _ (by decide),fun o ho hf => (hraw o ho _ (by decide)).trans hf⟩

theorem aside_of_heap {c' : Core} (hheap : c'.heap = c.heap) (hnext : c'.next = c.next) : c.Aside c' :=
  aside_of_raw hnext.ge fun o _ k _ => by rw [rawget,hheap]; rfl

theorem aside_rawset {o : ObjId} {key : String} {v : Value} (hk : key ∉ ["deps_newer","dep_status"]) :
    c.Aside (c.rawset o key v) := by
  refine aside_of_raw le_rfl fun p _ k hmem => ?_
  rw [rawget_rawset,if_neg]
  rintro ⟨_,rfl⟩
  exact hk hmem

theorem aside_failed (o : ObjId) : c.Aside (c.rawset o "dep_status" Status.error.toValue) := by
  refine ⟨le_rfl,fun p _ => by simp,fun p _ hf => ?_⟩
  rw [rawget_rawset]
  split_ifs
  · rfl
  · exact hf

theorem aside_alloc (x : Obj) : c.Aside (c.alloc x) := by
  refine aside_of_raw (Nat.le_succ _) fun o ho k _ => ?_
  rw [rawget,c.heap_alloc_of_lt _ ho]
  rfl

theorem aside_recordStart (o : ObjId) (i : ℕ) (j : Job) (signal : Signal) :
    c.Aside (c.recordStart o i j signal) := by
  cases signal with
  | yielded v =>
    have hinsert : c.Aside (c.insertJob i { j with handle := v }) := aside_of_heap rfl rfl
    exact trans_of Aside hinsert (aside_rawset (by decide))
  | finished => exact aside_rawset (by decide)
  | raised v =>
    have hstatus : c.Aside (c.rawset o "status" Status.error.toValue) := aside_rawset (by decide)
    exact trans_of Aside hstatus (aside_rawset (by decide))

end Core

section Lua
variable {E : Env}

theorem aside_targetIndex (key : String) : Moves Core.Aside (targetIndex key) := by
  intro c
  rcases targetIndex_cases key c with ⟨_,_,h⟩ | ⟨_,_,_,h⟩ | ⟨_,_,_,h⟩ | ⟨_,_,_,h⟩ <;> rw [h]
  · exact refl_of Core.Aside c
  · exact refl_of Core.Aside c
  · exact refl_of Core.Aside c
  · exact Core.aside_alloc _

theorem aside_asTable (v : Value) : Moves Core.Aside (asTable v) := by
  cases v <;> exact fun c => refl_of Core.Aside c

theorem aside_readDeps (o : ObjId) : Moves Core.Aside (readDeps o) := by
  intro c
  rcases readDeps_cases o c with ⟨s,_,h⟩ | ⟨e,h⟩ <;> rw [h] <;> exact refl_of Core.Aside c

theorem aside_enumerate (s : Finset String) : Moves Core.Aside (enumerate E s) :=
  fun _ => Core.aside_of_heap rfl rfl

theorem aside_readCached {key : String} (hk : key ∉ ["deps_newer","dep_status"]) (getter : String) (o : ObjId) :
    Moves Core.Aside (readCached E key getter o) := by
  refine moves_bind (moves_gets id) fun c => ?_
  split
  · exact moves_pure _
  · refine moves_ite (moves_bind (fun c' => ?_) fun v => moves_bind ?_ fun _ => moves_pure _) (moves_pure _)
    · rw [callGetter_state]
      exact refl_of Core.Aside c'
    · exact moves_modify fun c' => Core.aside_rawset hk

theorem aside_indexValue (v : Value) : Moves Core.Aside (indexValue v) := by
  cases v with
  | str k => exact aside_targetIndex k
  | num n => exact fun c => Core.aside_alloc _
  | _ => exact moves_raise _

theorem aside_resumeCommand (f : Fn) (name : Value) (i n : ℕ) :
    Moves Core.Aside (resumeCommand E f name i n) := by
  unfold resumeCommand
  refine moves_bind (moves_gets id) fun c => ?_
  split
  · exact moves_pure _
  · split
    · next path =>
      refine moves_ite (moves_pure _) ?_
      cases E.md path c.files
      · exact moves_pure _
      · exact moves_bind (moves_modify fun c' => Core.aside_of_heap rfl rfl) fun _ => moves_pure _
    · exact moves_pure _
  · exact moves_bind (moves_modify fun c' => Core.aside_of_heap rfl rfl) fun _ => moves_pure _

end Lua

/-- No list of newer dependencies changes, and nothing is started. -/
structure Aside (w w' : World) : Prop extends Core.Aside w.now w'.now where
  emits : Emits (fun e => ¬e.Starts) w w'

instance : IsPreorder World Aside where
  refl w := ⟨refl_of Core.Aside w.now,refl_of (Emits _) w⟩
  trans _ _ _ h h' := ⟨trans_of Core.Aside h.toAside h'.toAside,trans_of (Emits _) h.emits h'.emits⟩

section
variable {α : Type} {E : Env}

theorem aside_quietly {m : Lua α} (h : Moves Core.Aside m) : Moves Aside (quietly m) :=
  fun w => ⟨h w.now,moves_traced m w⟩

theorem aside_modify {f : Core → Core} (h : ∀ c : Core, c.Aside (f c)) :
    Moves Aside (quietly (Prog.modify f) : Engine Unit) := aside_quietly (moves_modify h)

theorem aside_emit {e : Event} (he : ¬e.Starts) : Moves Aside (Prog.emit e : Engine Unit) :=
  fun w => ⟨refl_of Core.Aside w.now,moves_emit (P := fun e => ¬e.Starts) he w⟩

theorem aside_core : Moves Aside core := moves_gets _

theorem aside_setField {o : ObjId} {key : String} {v : Value} (hk : key ∉ ["deps_newer","dep_status"]) :
    Moves Aside (setField o key v) := aside_modify fun _ => Core.aside_rawset hk

theorem aside_message (v : Value) : Moves Aside (message v) := by
  unfold message
  split
  · exact aside_emit id
  · exact aside_emit id
  · exact moves_raise _

theorem aside_messageIf (v : Value) : Moves Aside (messageIf v) := moves_ite (aside_message v) (moves_pure _)

theorem aside_concatText (v : Value) : Moves Aside (concatText v) := by
  unfold concatText
  split
  · exact moves_pure _
  · exact moves_pure _
  · exact moves_raise _

theorem aside_lessThan (u v : Value) : Moves Aside (lessThan u v) := by
  unfold lessThan
  split
  · exact moves_pure _
  · exact moves_pure _
  · exact moves_raise _

theorem aside_markError (o : ObjId) : Moves Aside (markError o) :=
  moves_bind (aside_setField (by decide)) fun _ => aside_emit id

theorem aside_missing (self : ObjId) : Moves Aside (missing E self) :=
  moves_ite (moves_pure _) (moves_bind (aside_quietly (aside_readCached (by decide) _ _)) fun _ => moves_pure _)

theorem aside_unbuildable (self : ObjId) : Moves Aside (unbuildable E self) :=
  moves_ite (moves_bind (aside_quietly (aside_readCached (by decide) _ _)) fun _ => moves_pure _) (moves_pure _)

theorem aside_failDep (self dep : ObjId) (name : String) (b : Pass) : Moves Aside (failDep E self dep name b) := by
  refine moves_bind aside_core fun c => moves_bind (aside_concatText _) fun depName => ?_
  refine moves_bind (aside_message _) fun _ => moves_bind (aside_messageIf _) fun _ => moves_ite ?_ ?_
  · refine moves_bind (moves_bind (aside_quietly (aside_readDeps _)) fun _ => aside_setField (by decide)) fun _ => ?_
    exact moves_bind (aside_modify fun c => Core.aside_failed self) fun _ => moves_pure _
  · exact moves_bind (aside_markError self) fun _ => moves_bind aside_core fun _ => moves_pure _

theorem aside_startJob (self : ObjId) (i : ℕ) (f : Fn) (name : Value) : Moves Aside (startJob E self i f name) := by
  refine moves_bind (aside_emit id) fun _ => moves_bind (aside_quietly (aside_resumeCommand _ _ _ _)) fun signal => ?_
  refine moves_bind (moves_bind (aside_modify fun c => Core.aside_recordStart _ _ _ _) fun _ => ?_) fun _ =>
    moves_bind (aside_emit id) fun _ => moves_bind aside_core fun _ => moves_pure _
  exact moves_ite (aside_emit id) (moves_pure _)

theorem aside_finishJob (i : ℕ) (j : Job) (err : Option Value) : Moves Aside (finishJob i j err) := by
  have hindex : ∀ v, Moves Aside (quietly (indexValue v) : Engine Value) := fun v => aside_quietly (aside_indexValue v)
  have htable : ∀ v, Moves Aside (quietly (asTable v) : Engine ObjId) := fun v => aside_quietly (aside_asTable v)
  refine moves_bind (aside_modify fun c => Core.aside_of_heap rfl rfl) fun _ => moves_bind ?_ fun _ => aside_emit id
  refine moves_bind (hindex _) fun v => moves_bind (htable v) fun o =>
    moves_bind (aside_setField (by decide)) fun _ => ?_
  cases err with
  | none => exact moves_pure _
  | some e =>
    refine moves_bind (hindex _) fun v => moves_bind (htable v) fun o =>
      moves_bind (aside_setField (by decide)) fun _ => ?_
    refine moves_bind (hindex _) fun v => moves_bind (htable v) fun p =>
      moves_bind (aside_setField (by decide)) fun _ => ?_
    exact aside_emit id

theorem aside_dispatchJob {exit : Engine Unit} (hexit : Moves Aside exit) (i : ℕ) (waiting : List Value) :
    Moves Aside (dispatchJob E exit i waiting) := by
  refine moves_bind aside_core fun c => ?_
  split
  · exact moves_pure _
  · next j _ =>
    refine moves_bind (aside_emit id) fun _ => moves_bind ?_ fun signal => ?_
    · exact moves_ite (aside_quietly (aside_resumeCommand _ _ _ _)) (moves_pure _)
    · cases signal with
      | finished => exact moves_bind (aside_finishJob _ _ _) fun _ => moves_pure _
      | raised v =>
        refine moves_bind (aside_finishJob _ _ _) fun _ => moves_bind ?_ fun _ =>
          moves_bind hexit fun _ => moves_pure _
        exact moves_bind (aside_concatText _) fun _ => moves_bind (aside_message _) fun _ => aside_messageIf _
      | yielded v =>
        refine moves_bind (aside_modify fun c => Core.aside_of_heap rfl rfl) fun _ => ?_
        exact moves_bind (aside_emit id) fun _ => moves_pure _

theorem aside_dispatch_drain_exit (n : ℕ) : Moves Aside (dispatch E n) ∧ Moves Aside (drain E n) ∧
    Moves Aside (makeExit E n) := by
  induction n with
  | zero => exact ⟨moves_diverge,moves_diverge,moves_diverge⟩
  | succ n ih =>
    obtain ⟨hdispatch,hdrain,hexit⟩ := ih
    refine ⟨?_,?_,?_⟩
    · unfold dispatch
      refine moves_bind aside_core fun c => moves_bind ?_ fun order => ?_
      · exact aside_quietly fun c => Core.aside_of_heap rfl rfl
      refine moves_bind (moves_forEach (aside_dispatchJob hexit) _ _) fun x => ?_
      rcases x with waiting | e
      · refine moves_bind aside_core fun c' => moves_ite (moves_pure _) (moves_ite (moves_pure _) ?_)
        exact moves_bind (moves_ite (aside_emit id) (moves_raise _)) fun _ => hdispatch
      · cases e
    · unfold drain
      refine moves_bind aside_core fun c => moves_ite ?_ (moves_pure _)
      exact moves_bind (moves_attempt hdispatch) fun _ => hdrain
    · unfold makeExit
      refine moves_bind aside_core fun c => moves_ite ?_ (moves_ite ?_ (moves_raise _))
      · exact aside_modify fun c => Core.aside_of_heap rfl rfl
      · refine moves_bind (aside_message _) fun _ => moves_bind hdrain fun _ => ?_
        exact moves_bind (aside_message _) fun _ => moves_raise _

theorem aside_goalStatus (goal : ObjId) (r : Except Value Value) : Moves Aside (goalStatus goal r) := by
  cases r with
  | ok s => exact moves_pure _
  | error e => exact moves_bind (aside_setField (by decide)) fun _ => moves_pure _

theorem aside_reportGoal (goal : ObjId) (name : String) (status : Value) :
    Moves Aside (reportGoal E goal name status) := by
  have hremove : Moves Aside (quietly (Prog.modify fun c : Core =>
      { c with goals := c.goals.erase name }) : Engine Unit) := aside_modify fun c => Core.aside_of_heap rfl rfl
  have hfailure : Moves Aside (reportFailure E goal name) := by
    refine moves_bind (moves_ite (moves_pure _) (aside_message _)) fun _ => ?_
    exact moves_bind aside_core fun c => aside_messageIf _
  unfold reportGoal
  refine moves_ite (moves_pure _) (moves_ite ?_ (moves_ite ?_ ?_))
  · exact moves_bind hfailure fun _ => moves_bind (aside_dispatch_drain_exit _).2.2 fun _ => hremove
  · exact moves_bind (aside_message _) fun _ => hremove
  · exact moves_bind (aside_message _) fun _ => hremove

theorem aside_defaultGoals : Moves Aside defaultGoals := by
  refine moves_bind aside_core fun c => moves_ite (moves_pure _) (moves_ite (moves_raise _) ?_)
  refine moves_bind (aside_quietly (aside_asTable _)) fun o => ?_
  split
  · exact aside_modify fun c => Core.aside_of_heap rfl rfl
  · exact moves_raise _

end
end Presto

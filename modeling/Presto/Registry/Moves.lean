import Presto.Registry.Session

/-! What the functions that declare targets do to the registry. Reading and checking only makes
tables, an entry of `depends_on` only adds a dependency, and every declaration only lets the
registry and the dependencies grow. -/
namespace Presto
open Program

section Quiet
variable {α : Type} (E : Env)

theorem quiet_luaError (msg : String) : Moves Core.Quiet (luaError msg : Lua α) := moves_raise _

theorem quiet_ofExcept (x : Except Value α) : Moves Core.Quiet (Prog.ofExcept x : Lua α) :=
  fun c => refl_of Core.Quiet c

theorem quiet_targetIndex (key : String) : Moves Core.Quiet (targetIndex key) := by
  intro c
  rcases targetIndex_cases key c with ⟨_,_,h⟩ | ⟨_,_,_,h⟩ | ⟨_,_,_,h⟩ | ⟨_,_,_,h⟩ <;> rw [h]
  · exact refl_of Core.Quiet c
  · exact refl_of Core.Quiet c
  · exact refl_of Core.Quiet c
  · exact c.quiet_alloc _

theorem quiet_targetDefined (key : Value) : Moves Core.Quiet (targetDefined E key) := by
  intro c
  unfold targetDefined
  simp only [run_bind_gets,id]
  cases c.defined with
  | fn f =>
    cases f with
    | defined => cases key <;> exact refl_of Core.Quiet c
    | _ => exact moves_bind (quiet_ofExcept _) (fun _ => moves_pure _) c
  | _ => exact refl_of Core.Quiet c

theorem quiet_asTable (v : Value) : Moves Core.Quiet (asTable v) := by
  cases v <;> exact fun c => refl_of Core.Quiet c

/-- A method call runs the method or changes nothing. -/
theorem callMethod_state {P : Core → Prop} {c : Core} {m : Method} {key : String} {o : ObjId}
    {body : Lua α} {answer : Value → α} (hc : P c)
    (hbody : c.attr o key = .fn (.method m) → P (body c).2) :
    P (callMethod E m key o body answer c).2 := by
  unfold callMethod
  simp only [run_bind_gets,id]
  cases h : c.attr o key with
  | fn f =>
    simp only [run_ite]
    split_ifs with hf
    · exact hbody (by rw [h,hf])
    · rwa [snd_run_bind_pure]
  | _ => exact hc

theorem callMethod_of_method {c : Core} {m : Method} {key : String} {o : ObjId}
    (h : c.attr o key = .fn (.method m)) (body : Lua α) (answer : Value → α) :
    callMethod E m key o body answer c = body c := by
  simp [callMethod,h]

theorem moves_callMethod {R : Core → Core → Prop} [IsPreorder Core R] {c : Core} {m : Method}
    {key : String} {o : ObjId} {body : Lua α} {answer : Value → α}
    (hbody : c.attr o key = .fn (.method m) → R c (body c).2) :
    R c (callMethod E m key o body answer c).2 := callMethod_state E (refl_of R c) hbody

/-- Reading the dependencies of a target changes nothing. -/
theorem readDeps_cases (o : ObjId) (c : Core) :
    (∃ s, c.attr o "deps" = .names s ∧ readDeps o c = (.ret s,c)) ∨
      ∃ e, readDeps o c = (.raise e,c) := by
  unfold readDeps
  simp only [run_bind_gets,id]
  cases h : c.attr o "deps" with
  | names s => exact .inl ⟨s,rfl,rfl⟩
  | _ => exact .inr ⟨_,rfl⟩

theorem quiet_readDeps (o : ObjId) : Moves Core.Quiet (readDeps o) := by
  intro c
  rcases readDeps_cases o c with ⟨s,_,h⟩ | ⟨e,h⟩ <;> rw [h] <;> exact refl_of Core.Quiet c

theorem quiet_enumerate (s : Finset String) : Moves Core.Quiet (enumerate E s) :=
  fun c => c.quiet_tick

theorem quiet_checkForCycle (n : ℕ) (self : ObjId) (t d : String) :
    Moves Core.Quiet (checkForCycle E n self t d) := by
  induction n generalizing self with
  | zero => exact quiet_luaError _
  | succ n ih =>
    unfold checkForCycle
    refine moves_bind (moves_gets id) fun c => ?_
    apply moves_ite (quiet_luaError _)
    apply moves_bind (quiet_readDeps self)
    intro deps
    apply moves_bind (quiet_enumerate E deps)
    intro order
    refine moves_bind (moves_forEach ?_ order ()) fun _ => moves_pure _
    intro k _
    apply moves_bind (quiet_targetIndex k)
    intro v
    apply moves_bind (quiet_asTable v)
    intro dep
    exact moves_bind (fun c => moves_callMethod E fun _ => ih dep c) fun _ => moves_pure _

/-- `dir_target` of a name that is in use ends with a lookup of it, or without a value. -/
theorem wp_existingDir {Q : Outcome Value Value → Core → Prop} {c : Core} (dir : String)
    (hindex : ∀ c', c.Quiet c' → Q (targetIndex dir c').1 (targetIndex dir c').2)
    (hfail : ∀ o c', c.Quiet c' → (∀ v, o ≠ .ret v) → Q o c') : wp (do
    let v ← targetIndex dir
    let o ← asTable v
    let c ← Prog.gets id
    if dirClass ∈ o::(c.heap o).chain then targetIndex dir
    else luaError "can't redefine non-directory target to be a directory target") Q c := by
  apply wp_bind_of ((quiet_targetIndex dir).wp c)
  · intro v c₁ h₁
    apply wp_bind_of ((quiet_asTable v).wp c₁)
    · intro o c₂ h₂
      have hq := trans_of Core.Quiet h₁ h₂
      rw [wp_bind_gets,wp_ite]
      split_ifs
      · exact hindex c₂ hq
      · exact hfail (.raise _) c₂ hq (by simp)
    · exact fun _ _ h₂ => hfail _ _ (trans_of Core.Quiet h₁ h₂) (by simp)
    · exact fun _ h₂ => hfail _ _ (trans_of Core.Quiet h₁ h₂) (by simp)
  · exact fun _ _ h => hfail _ _ h (by simp)
  · exact fun _ h => hfail _ _ h (by simp)

theorem quiet_existingDir (dir : String) : Moves Core.Quiet (do
    let v ← targetIndex dir
    let o ← asTable v
    let c ← Prog.gets id
    if dirClass ∈ o::(c.heap o).chain then targetIndex dir
    else luaError "can't redefine non-directory target to be a directory target") := fun c =>
  wp_existingDir (Q := fun _ c' => c.Quiet c') dir
    (fun c' h => trans_of Core.Quiet h (quiet_targetIndex dir c')) fun _ _ h _ => h

theorem dependsOnEntry_of_not_str {self : ObjId} {v : Value} (hv : ∀ s, v ≠ .str s) :
    dependsOnEntry E self v = addDependency E self v := by
  cases v with
  | str s => exact absurd rfl (hv s)
  | _ => rfl

end Quiet

/-! The functions that `depends_on` calls, for any relation that contains `Quiet`. -/
section Generic
variable {R : Core → Core → Prop} [IsPreorder Core R] (hq : ∀ c c' : Core, c.Quiet c' → R c c')
  (E : Env)
include hq

theorem moves_registerSelf_of {self : ObjId}
    (hn : ∀ key, Moves R (targetNewindex key (.obj self))) : Moves R (registerSelf E self) := by
  unfold registerSelf
  refine moves_bind (moves_gets id) fun c => ?_
  apply moves_bind ((quiet_targetDefined E _).mono hq)
  intro known
  refine moves_ite (moves_pure _) ?_
  cases c.attr self "name" with
  | str name => exact hn name
  | _ => exact (quiet_luaError _).mono hq

theorem moves_addDependency_of {self : ObjId} (hi : ∀ name, Moves R (insertDep self name))
    (v : Value) : Moves R (addDependency E self v) := by
  unfold addDependency
  refine moves_bind (moves_gets id) fun c => ?_
  cases v with
  | obj o =>
    dsimp only
    refine moves_ite ?_ ((quiet_luaError _).mono hq)
    cases c.attr o "name" with
    | str name =>
      cases c.attr self "name" with
      | str own =>
        dsimp only
        refine moves_ite ?_ (hi name)
        apply moves_bind ((quiet_asTable _).mono hq)
        intro root
        refine moves_bind (fun c => moves_callMethod E fun _ => ?_) fun _ => hi name
        exact hq _ _ (quiet_checkForCycle E _ root own name c)
      | _ => exact (quiet_luaError _).mono hq
    | _ => exact (quiet_luaError _).mono hq
  | _ => exact (quiet_luaError _).mono hq

theorem moves_dependsOn_of {self : ObjId} (hn : ∀ key, Moves R (targetNewindex key (.obj self)))
    (hi : ∀ name, Moves R (insertDep self name)) (list : List Value) :
    Moves R (dependsOn E self list) := by
  unfold dependsOn dependsOnEntries
  apply moves_bind (moves_registerSelf_of hq E hn)
  intro _
  refine moves_bind (moves_forEach ?_ _ ()) fun _ => moves_pure _
  intro v _
  refine moves_bind ?_ fun _ => moves_pure _
  by_cases hv : ∃ name, v = .str name
  · obtain ⟨name,rfl⟩ := hv
    apply moves_bind ((quiet_targetIndex name).mono hq)
    intro dep
    apply moves_bind (moves_registerSelf_of hq E hn)
    exact fun _ => moves_addDependency_of hq E hi dep
  · rw [dependsOnEntry_of_not_str E fun s hs => hv ⟨s,hs⟩]
    exact moves_addDependency_of hq E hi v

theorem moves_derive_of (p : ObjId) (hnew : Moves R (newTarget (some p) noFields))
    (hn : ∀ key v, Moves R (targetNewindex key v)) (key : String) : Moves R (do
    let o ← newTarget (some p) noFields
    targetNewindex key (.obj o)
    targetIndex key) := by
  apply moves_bind hnew
  intro o
  exact moves_bind (hn key _) fun _ => (quiet_targetIndex key).mono hq

/-- `phony_target` and `dir_target`, where a derived target is made by `hd`. -/
theorem moves_phonyTarget_of (name : String) (hd : Moves R (do
    let o ← newTarget (some phonyClass) noFields
    targetNewindex name (.obj o)
    targetIndex name)) : Moves R (phonyTarget E name) := by
  unfold phonyTarget
  apply moves_bind ((quiet_targetDefined E _).mono hq)
  intro known
  refine moves_ite ?_ hd
  apply moves_bind ((quiet_targetIndex name).mono hq)
  intro v
  exact moves_bind ((quiet_asTable v).mono hq) fun _ => (quiet_luaError _).mono hq

theorem moves_dirTarget_of (dir : String) (hd : Moves R (do
    let o ← newTarget (some dirClass) noFields
    targetNewindex dir (.obj o)
    targetIndex dir)) : Moves R (dirTarget E dir) := by
  unfold dirTarget
  apply moves_bind ((quiet_targetDefined E _).mono hq)
  intro known
  exact moves_ite ((quiet_existingDir dir).mono hq) hd

end Generic

section Evolves
variable {α : Type} (E : Env)

theorem moves_targetNewindex (key : String) (v : Value) :
    Moves Core.Evolves (targetNewindex key v) := by
  intro c
  rcases targetNewindex_cases key v c with ⟨_,_,h⟩ | ⟨_,_,h⟩ | ⟨_,_,hk,⟨f,_,h⟩ | ⟨o,_,ho,h⟩⟩ <;>
    rw [h]
  · exact c.evolves_proxy v
  · exact refl_of Core.Evolves c
  · have ha := Core.evolves_alloc (c := c) none (by simp) (Function.update noFields "command" (.fn f))
    exact trans_of Core.Evolves ha (Core.evolves_register hk (by simp [Core.instance]))
  · exact Core.evolves_register hk ho

theorem moves_insertDep (self : ObjId) (name : String) :
    Moves Core.Evolves (insertDep self name) := by
  intro c hc
  unfold insertDep
  rcases readDeps_cases self c with ⟨s,hs,h⟩ | ⟨e,h⟩
  · rw [run_bind_of_ret h]
    have hself : c.attr self "deps" ≠ .nil := by simp [hs]
    have hm : self ≠ mtTable := by
      rintro rfl
      exact hself (hc.attr_mt _)
    refine Core.evolves_setDeps (hc.attr_ne_nil hself) hm ?_ hc
    intro u hu
    rw [Core.attr_eq_rawget (by simp [hu]),hu] at hs
    cases hs
    exact Finset.subset_insert name _
  · rw [run_bind_of_raise h]
    exact refl_of Core.Evolves c hc

end Evolves

section Steady
variable (E : Env)

theorem steady_insertDep (self : ObjId) (name : String) :
    Moves Core.Steady (insertDep self name) := by
  intro c
  have hev := moves_insertDep self name c
  unfold insertDep at hev ⊢
  rcases readDeps_cases self c with ⟨s,_,h⟩ | ⟨e,h⟩
  · rw [run_bind_of_ret h] at hev ⊢
    have hraw : ∀ p j, j ≠ "deps" →
        (c.rawset self "deps" (.names (insert name s))).rawget p j = c.rawget p j := by
      intro p j hj
      rw [Core.rawget_rawset,if_neg (by simp [hj])]
    exact ⟨le_rfl,rfl,rfl,fun p _ => Core.chain_rawset ..,fun p _ => Core.isTarget_rawset ..,
      fun p _ j hj => hraw p j hj,fun j _ hj h p => (hraw p j hj).trans (h p),hev⟩
  · rw [run_bind_of_raise h]
    exact refl_of Core.Steady c

theorem steady_addDependency (self : ObjId) (v : Value) :
    Moves Core.Steady (addDependency E self v) :=
  moves_addDependency_of (fun _ _ => Core.Quiet.steady) E (steady_insertDep self) v

end Steady

/-! A whole declaration, for a relation that only says something of sound states. -/
section Declare
variable {R : Core → Core → Prop} [IsPreorder Core R] (hq : ∀ c c' : Core, c.Quiet c' → R c c')
  (hs : ∀ c c' : Core, (c.Sound → R c c') → R c c')
  (ha : ∀ (c : Core) self fields, (∀ p ∈ self, p < c.next) → R c (c.alloc (c.instance self fields)))
  (hn : ∀ key v, Moves R (targetNewindex key v)) (hi : ∀ self name, Moves R (insertDep self name))
  (E : Env)
include hs ha

omit [IsPreorder Core R] in
/-- A class that mkinit.lua keeps for itself gets a new instance. -/
theorem moves_newTarget_of (p : ObjId) (hp : p < 3) : Moves R (newTarget (some p) noFields) := by
  intro c
  apply hs
  intro hc
  apply ha
  rintro q ⟨⟩
  exact hp.trans_le hc.classes

omit ha in
theorem moves_callNew_of (self : Option ObjId) (body : Lua ObjId)
    (hbody : ∀ c : Core, (∀ p ∈ self, p < c.next) → R c (body c).2) :
    Moves R (callNew E self body) := by
  intro c
  apply hs
  intro hc
  cases self with
  | none =>
    change R c ((body >>= fun o => pure (Value.obj o)) c).2
    rw [snd_run_bind_pure]
    exact hbody c (by simp)
  | some p =>
    apply moves_callMethod
    intro hp
    have hnew : c.attr p "new" ≠ .nil := by simp [hp]
    rw [snd_run_bind_pure]
    apply hbody c
    rintro q ⟨⟩
    exact hc.attr_ne_nil hnew

include hq hn hi

/-- One declaration, whatever it is and however it ends. -/
theorem moves_declare_of (d : Decl) : Moves R (declare E d) := by
  cases d with
  | index key => exact (quiet_targetIndex key).mono hq
  | assign key v => exact moves_bind (hn key v) fun _ => moves_pure _
  | new self fields => exact moves_callNew_of hs E self _ fun c hself => ha c self fields hself
  | newNamed self key fields =>
    apply moves_callNew_of hs
    intro c hself
    have hm : Moves R (do
        targetNewindex key (.obj c.next)
        pure c.next) := moves_bind (hn key _) fun _ => moves_pure _
    exact trans_of R (ha c self fields hself) (hm _)
  | phonyTarget name =>
    exact moves_phonyTarget_of hq E name
      (moves_derive_of hq phonyClass (moves_newTarget_of hs ha _ (by decide)) hn name)
  | dirTarget dir =>
    exact moves_dirTarget_of hq E dir
      (moves_derive_of hq dirClass (moves_newTarget_of hs ha _ (by decide)) hn dir)
  | dependsOn h list =>
    apply moves_bind ((quiet_asTable h).mono hq)
    intro o
    refine moves_bind (fun c => moves_callMethod E fun _ => ?_) fun _ => moves_pure _
    exact moves_dependsOn_of hq E (fun key => hn key _) (hi o) list c

end Declare

theorem moves_dependsOn (E : Env) (self : ObjId) (list : List Value) :
    Moves Core.Evolves (dependsOn E self list) :=
  moves_dependsOn_of (fun _ _ => Core.Quiet.evolves) E (fun key => moves_targetNewindex key _)
    (moves_insertDep self) list

theorem moves_declare (E : Env) (d : Decl) : Moves Core.Evolves (declare E d) :=
  moves_declare_of (fun _ _ => Core.Quiet.evolves) (fun _ _ h hc => h hc hc)
    (fun _ self fields hself => Core.evolves_alloc self hself fields) moves_targetNewindex
    moves_insertDep E d

/-- The registry of every session is sound. -/
theorem Session.Run.sound {E : Env} {ok : Core → Decl → Prop} {s : Session} (h : s.Run E ok) :
    s.core.Sound := by
  induction h with
  | start files => exact Core.sound_init files
  | step _ _ _ ih => exact (moves_declare E _ _ ih).1

namespace Core

/-- The target `o` reads its name as `own`, and something is registered under it. -/
structure Settled (c : Core) (o : ObjId) (own : String) : Prop where
  proxy : c.defined = .fn .defined
  name : c.attr o "name" = .str own
  known : c.registry own ≠ .nil

theorem Steady.settled {c c' : Core} (h : c.Steady c') (hc : c.Sound) {o : ObjId} {own : String}
    (hs : c.Settled o own) : c'.Settled o own where
  proxy := h.defined.trans hs.proxy
  name := by
    have ho : c.attr o "name" ≠ .nil := by simp [hs.name]
    rw [h.attr hc (hc.attr_ne_nil ho) (by decide),hs.name]
  known := by
    rw [h.registry]
    exact hs.known

end Core

section Settled
variable (E : Env)

theorem targetDefined_of_proxy {c : Core} (h : c.defined = .fn .defined) (k : String) :
    targetDefined E (.str k) c = (.ret (decide (c.registry k ≠ .nil)),c) := by
  simp [targetDefined,h]

/-- `depends_on` leaves a settled target alone, registers an unknown name, or raises. -/
theorem registerSelf_cases {c : Core} (h : c.defined = .fn .defined) (self : ObjId) :
    (∃ own, c.Settled self own ∧ registerSelf E self c = (.ret (),c)) ∨
    (∃ own, c.attr self "name" = .str own ∧ c.registry own = .nil ∧
      registerSelf E self c = targetNewindex own (.obj self) c) ∨
    ∃ e, registerSelf E self c = (.raise e,c) := by
  unfold registerSelf
  simp only [run_bind_gets,id]
  cases hn : c.attr self "name" with
  | str own =>
    rw [run_bind_of_ret (targetDefined_of_proxy E h own)]
    by_cases hr : c.registry own = .nil
    · exact .inr (.inl ⟨own,rfl,hr,by simp [hr]⟩)
    · exact .inl ⟨own,⟨h,hn,hr⟩,by simp [hr]⟩
  | _ =>
    right
    right
    have hunknown : ∀ v : Value, (∀ k, v ≠ .str k) → targetDefined E v c = (.ret false,c) := by
      intro v hv
      cases v with
      | str k => exact absurd rfl (hv k)
      | _ => simp [targetDefined,h]
    rw [run_bind_of_ret (hunknown _ (by simp))]
    exact ⟨_,rfl⟩

theorem registerSelf_of_settled {c : Core} {self : ObjId} {own : String} (h : c.Settled self own) :
    registerSelf E self c = (.ret (),c) := by
  rcases registerSelf_cases E h.proxy self with ⟨_,_,hr⟩ | ⟨own',hn,hk,_⟩ | ⟨e,he⟩
  · exact hr
  · rw [h.name] at hn
    cases hn
    exact absurd hk h.known
  · unfold registerSelf at he
    simp only [run_bind_gets,id,h.name] at he
    rw [run_bind_of_ret (targetDefined_of_proxy E h.proxy own)] at he
    simp [h.known] at he

/-- One entry of the list of a settled target. -/
theorem steady_dependsOnEntry {c : Core} (hc : c.Sound) {self : ObjId} {own : String}
    (h : c.Settled self own) (v : Value) : c.Steady (dependsOnEntry E self v c).2 := by
  cases v with
  | str name =>
    have hq : wp (targetIndex name) (fun _ c' => c.Quiet c') c := quiet_targetIndex name c
    have hw : wp (dependsOnEntry E self (.str name)) (fun _ c' => c.Steady c') c := by
      apply wp_bind_of hq
      · intro dep c' hc'
        rw [wp,run_bind_of_ret (registerSelf_of_settled E (hc'.steady.settled hc h))]
        exact trans_of Core.Steady hc'.steady (steady_addDependency E self dep c')
      · exact fun _ _ h => h.steady
      · exact fun _ h => h.steady
    exact hw
  | _ => exact steady_addDependency E self _ c

theorem steady_dependsOnEntries {c : Core} (hc : c.Sound) {self : ObjId} {own : String}
    (h : c.Settled self own) (list : List Value) :
    c.Steady (dependsOnEntries E self list c).2 := by
  unfold dependsOnEntries
  rw [snd_run_bind_pure]
  have hw : wp (forEach (γ := Empty) (fun v (_ : Unit) => do
      dependsOnEntry E self v
      pure (.next ())) (list.takeWhile fun v => v ≠ .nil) ()) (fun _ c' => c.Steady c') c := by
    apply wp_forEach fun _ _ c' => c.Steady c'
    · intro v _ _ c' hc'
      have he := steady_dependsOnEntry E (hc'.evolves hc).1 (hc'.settled hc h) v
      have hw : wp (dependsOnEntry E self v) (fun _ c'' => c.Steady c'') c' :=
        trans_of Core.Steady hc' he
      exact wp_bind_of hw (fun _ _ h => h) (fun _ _ h => h) (fun _ h => h)
    · exact fun _ _ h => h
    · exact refl_of Core.Steady c
  exact hw

end Settled

end Presto

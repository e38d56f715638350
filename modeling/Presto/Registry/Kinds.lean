import Presto.Registry.Bindings

/-! Phony targets and directories: declaring one of them again, and declaring one under a name
that stands for something else. -/
namespace Presto
open Program

/-- The targets that have a declaring function of their own. -/
inductive Kind
  | phony
  | dir
  deriving DecidableEq, Repr

namespace Kind

def decl : Kind → String → Decl
  | phony,n => .phonyTarget n
  | dir,n => .dirTarget n

def prototype : Kind → ObjId
  | phony => phonyClass
  | dir => dirClass

def redefined : Kind → String
  | phony => "can't redefine non-phony target to be a phony target"
  | dir => "can't redefine non-directory target to be a directory target"

/-- What the function hands to `target:defined`. -/
def asked : Kind → String → Value
  | phony,_ => .nil
  | dir,n => .str n

/-- What the function does with a name that `target:defined` knows. -/
def existing : Kind → String → Lua Value
  | phony,n => do
    let v ← targetIndex n
    let _ ← asTable v
    luaError "can't redefine non-phony target to be a phony target"
  | dir,n => do
    let v ← targetIndex n
    let o ← asTable v
    let c ← Prog.gets id
    if dirClass ∈ o::(c.heap o).chain then targetIndex n
    else luaError "can't redefine non-directory target to be a directory target"

/-- What it does with another name. -/
def derive (k : Kind) (n : String) : Lua Value := do
  let o ← newTarget (some k.prototype) noFields
  targetNewindex n (.obj o)
  targetIndex n

theorem prototype_lt (k : Kind) : k.prototype < 3 := by cases k <;> decide

/-- The refusal of an assignment is another one. -/
theorem redefined_ne (k : Kind) (n : String) :
    "cannot modify protected value (or existing target) '" ++ n ++ "'" ≠ k.redefined := by
  intro h
  have hl := congrArg (fun s => s.toList[3]?) h
  simp only [String.toList_append] at hl
  revert hl
  cases k <;> simp [redefined]

theorem declare_decl (E : Env) (k : Kind) (n : String) : declare E (k.decl n) = (do
    let known ← targetDefined E (k.asked n)
    if known then k.existing n else k.derive n) := by
  cases k <;> rfl

end Kind

/-- Declaring `n` as a target of the kind `k` in the state that `s` has reached makes a new
target, gives back the one that was declared before, or refuses. -/
structure KindSafe (E : Env) (s : Session) (k : Kind) (n : String) : Prop where
  new : s.core.registry n = .nil → ∃ o c', declare E (k.decl n) s.core = (.ret (.obj o),c') ∧
    s.core.next ≤ o ∧ c'.registry n = .obj o ∧ k.prototype ∈ o::(c'.heap o).chain
  again : ∀ o, (k.decl n,.ret (.obj o)) ∈ s.history →
    declare E (k.decl n) s.core = (.ret (.obj o),s.core)
  other : ∀ o, s.core.registry n = .obj o → k.prototype ∉ o::(s.core.heap o).chain →
    ∃ c', declare E (k.decl n) s.core = (.raise (.str k.redefined),c') ∧
      c'.registry = s.core.registry

/-- `target:defined` gives the answer that `k` needs for `n`. No answer makes `phony_target`
return a target that it declared before. -/
structure KindAsks (E : Env) (s : Session) (k : Kind) (n : String) : Prop where
  new : s.core.registry n = .nil → n ≠ "defined" ∧
    (targetDefined E (k.asked n) s.core).1 = .ret false
  again : ∀ o, (k.decl n,.ret (.obj o)) ∈ s.history → s.core.registry n ≠ .nil →
    k = .dir ∧ (targetDefined E (k.asked n) s.core).1 = .ret true
  other : ∀ o, s.core.registry n = .obj o → k.prototype ∉ o::(s.core.heap o).chain →
    (targetDefined E (k.asked n) s.core).1 = .ret true ∨
      (targetDefined E (k.asked n) s.core).1 = .raise (.str k.redefined)

namespace Core

/-- What both functions rely on: their classes are targets, and the registry has no entry
`defined` as long as the proxy has a field of that name. -/
structure Kinded (c : Core) : Prop where
  sound : c.Sound
  classes : ∀ k : Kind, (c.heap k.prototype).isTarget
  proxy : c.defined ≠ .nil → c.registry "defined" = .nil

theorem kinded_init (files : FileSystem) : (Core.init files).Kinded :=
  ⟨sound_init files,fun k => by cases k <;> rfl,fun _ => rfl⟩

/-- What makes the registry grow and keeps the entry `defined` keeps all of it. -/
theorem Kinded.evolve {c c' : Core} (h : c.Kinded) (he : c.Evolves c')
    (hp : c'.defined ≠ .nil → c'.registry "defined" = .nil) : c'.Kinded := by
  obtain ⟨hs,hx⟩ := he h.sound
  refine ⟨hs,fun k => ?_,hp⟩
  rw [hx.isTarget _ (k.prototype_lt.trans_le h.sound.classes)]
  exact h.classes k

/-- The relation between the states before and after a declaration. -/
def KeepsKinded (c c' : Core) : Prop := c.Kinded → c'.Kinded

instance : IsPreorder Core KeepsKinded where
  refl _ := id
  trans _ _ _ h h' hc := h' (h hc)

end Core

theorem kinded_targetNewindex (key : String) (v : Value) :
    Moves Core.KeepsKinded (targetNewindex key v) := by
  intro c h
  refine h.evolve (moves_targetNewindex key v c) ?_
  have hreg : ∀ (c₁ : Core) o, c₁.registry "defined" = .nil → key ≠ "defined" →
      (c₁.register key o).registry "defined" = .nil := by
    intro c₁ o hr hk
    rw [c₁.registry_register_of_ne o hk.symm (by decide),hr]
  rcases targetNewindex_cases key v c with ⟨_,hd,hr⟩ | ⟨_,_,hr⟩ | ⟨hk,_,_,⟨f,_,hr⟩ | ⟨o,_,_,hr⟩⟩ <;>
    rw [hr] <;> intro hd'
  · exact h.proxy hd
  · exact h.proxy hd'
  · exact hreg _ _ (h.proxy hd') fun hkey => hk ⟨hkey,hd'⟩
  · exact hreg _ _ (h.proxy hd') fun hkey => hk ⟨hkey,hd'⟩

theorem kinded_declare (E : Env) (d : Decl) : Moves Core.KeepsKinded (declare E d) := by
  apply moves_declare_of (R := Core.KeepsKinded)
  · intro c c' hq h
    refine h.evolve hq.evolves ?_
    rw [hq.defined,hq.registry]
    exact h.proxy
  · exact fun c c' h hc => h hc.sound hc
  · exact fun c self fields hself h => h.evolve (Core.evolves_alloc self hself fields) h.proxy
  · exact kinded_targetNewindex
  · intro self name c h
    have hs := steady_insertDep self name c
    refine h.evolve hs.evolves ?_
    rw [hs.defined,hs.registry]
    exact h.proxy

theorem Session.Run.kinded {E : Env} {ok : Core → Decl → Prop} {s : Session} (h : s.Run E ok) :
    s.core.Kinded := by
  induction h with
  | start files => exact Core.kinded_init files
  | step _ _ _ ih => exact kinded_declare E _ _ ih

section
variable {E : Env} {c : Core} {k : Kind} {n : String}

/-- Asking `target:defined` changes nothing, and an answer is needed to go on. -/
theorem targetDefined_cases (E : Env) (key : Value) (c : Core) :
    (∃ b, targetDefined E key c = (.ret b,c) ∧ c.defined ≠ .nil) ∨
      ∃ e, targetDefined E key c = (.raise e,c) := by
  unfold targetDefined
  simp only [run_bind_gets,id]
  cases hd : c.defined with
  | fn f =>
    cases f with
    | defined =>
      left
      cases key with
      | str j => exact ⟨_,rfl,by simp⟩
      | _ => exact ⟨false,rfl,by simp⟩
    | _ =>
      dsimp only
      cases hx : E.call _ key _ c.files with
      | ok v => exact .inl ⟨v.truthy,rfl,by simp⟩
      | error e => exact .inr ⟨e,rfl⟩
  | _ => exact .inr ⟨_,rfl⟩

/-- The three ways in which a declaration can go on. -/
theorem declare_cases (E : Env) (k : Kind) (n : String) (c : Core) :
    ((targetDefined E (k.asked n) c).1 = .ret false ∧ c.defined ≠ .nil ∧
      declare E (k.decl n) c = k.derive n c) ∨
    ((targetDefined E (k.asked n) c).1 = .ret true ∧ c.defined ≠ .nil ∧
      declare E (k.decl n) c = k.existing n c) ∨
    ∃ e, (targetDefined E (k.asked n) c).1 = .raise e ∧ declare E (k.decl n) c = (.raise e,c) := by
  rcases targetDefined_cases E (k.asked n) c with ⟨b,hb,hd⟩ | ⟨e,he⟩
  · rw [k.declare_decl,run_bind_of_ret hb,hb]
    cases b with
    | false => exact .inl ⟨rfl,hd,rfl⟩
    | true => exact .inr (.inl ⟨rfl,hd,rfl⟩)
  · rw [k.declare_decl,run_bind_of_raise he,he]
    exact .inr (.inr ⟨e,rfl,rfl⟩)

theorem declare_of_false (h : (targetDefined E (k.asked n) c).1 = .ret false) :
    declare E (k.decl n) c = k.derive n c ∧ c.defined ≠ .nil := by
  rcases declare_cases E k n c with ⟨_,hd,hx⟩ | ⟨hb,_⟩ | ⟨e,he,_⟩
  · exact ⟨hx,hd⟩
  · rw [hb] at h
    cases h
  · rw [he] at h
    cases h

theorem declare_of_true (h : (targetDefined E (k.asked n) c).1 = .ret true) :
    declare E (k.decl n) c = k.existing n c ∧ c.defined ≠ .nil := by
  rcases declare_cases E k n c with ⟨hb,_⟩ | ⟨_,hd,hx⟩ | ⟨e,he,_⟩
  · rw [hb] at h
    cases h
  · exact ⟨hx,hd⟩
  · rw [he] at h
    cases h

theorem declare_of_raise {e : Value} (h : (targetDefined E (k.asked n) c).1 = .raise e) :
    declare E (k.decl n) c = (.raise e,c) := by
  rcases declare_cases E k n c with ⟨hb,_⟩ | ⟨hb,_⟩ | ⟨e',he,hx⟩
  · rw [hb] at h
    cases h
  · rw [hb] at h
    cases h
  · rw [he] at h
    cases h
    exact hx

/-- A name that is free gets a new instance of the class. -/
theorem derive_free (h : c.Kinded) (hn : n ≠ "defined") (hb : hasBackslash n = false)
    (hr : c.registry n = .nil) : ∃ c', k.derive n c = (.ret (.obj c.next),c') ∧
      c'.registry n = .obj c.next ∧ k.prototype ∈ c.next::(c'.heap c.next).chain := by
  let a := c.alloc (c.instance (some k.prototype) noFields)
  have ht : (a.heap c.next).isTarget := by
    rw [Core.heap_alloc_next]
    exact h.classes k
  have hw : targetNewindex n (.obj c.next) a = (.ret (),a.register n c.next) := by
    rcases targetNewindex_cases n (.obj c.next) a with ⟨hk,_⟩ | ⟨_,e,he⟩ | ⟨_,_,_,⟨_,hf,_⟩ | ⟨o,ho,_,hx⟩⟩
    · exact absurd hk hn
    · have hr' : a.registry n = .nil := hr
      simp [targetNewindex,hn,hb,hr',ht] at he
    · cases hf
    · cases ho
      exact hx
  have hi : targetIndex n (a.register n c.next) = (.ret (.obj c.next),a.register n c.next) := by
    simp [targetIndex,hn,hb]
  refine ⟨a.register n c.next,?_,a.registry_register_self n _,?_⟩
  · rw [Kind.derive,run_bind_newTarget,run_bind_of_ret hw,hi]
  · rw [Core.chain_register,Core.heap_alloc_next]
    exact List.mem_cons_of_mem _ List.mem_cons_self

/-- A name that is in use is refused, though not with the message of the kind. -/
theorem derive_used (hn : n ≠ "defined") (hb : hasBackslash n = false) (hr : c.registry n ≠ .nil) :
    (k.derive n c).1 =
      .raise (.str ("cannot modify protected value (or existing target) '" ++ n ++ "'")) := by
  have hw : targetNewindex n (.obj c.next) (c.alloc (c.instance (some k.prototype) noFields)) =
      (.raise (.str ("cannot modify protected value (or existing target) '" ++ n ++ "'")),
        c.alloc (c.instance (some k.prototype) noFields)) := by
    simp [targetNewindex,hn,hb,hr,luaError]
  rw [Kind.derive,run_bind_newTarget,run_bind_of_raise hw]

/-- The name `defined` belongs to the proxy. -/
theorem derive_defined (hd : c.defined ≠ .nil) :
    (k.derive "defined" c).2.registry = c.registry := by
  let a := c.alloc (c.instance (some k.prototype) noFields)
  have hw : targetNewindex "defined" (.obj c.next) a = (.ret (),{ a with defined := .obj c.next }) := by
    rcases targetNewindex_cases "defined" (.obj c.next) a with ⟨_,_,h⟩ | ⟨h,_⟩ | ⟨h,_⟩
    · exact h
    · exact absurd ⟨rfl,hd⟩ h
    · exact absurd ⟨rfl,hd⟩ h
  rw [Kind.derive,run_bind_newTarget,run_bind_of_ret hw]
  exact (quiet_targetIndex "defined" _).registry

theorem quiet_existing (k : Kind) (n : String) : Moves Core.Quiet (k.existing n) := by
  cases k with
  | phony =>
    apply moves_bind (quiet_targetIndex n)
    intro v
    exact moves_bind (quiet_asTable v) fun _ => quiet_luaError _
  | dir => exact quiet_existingDir n

theorem existing_phony (n : String) (c : Core) (v : Value) : (Kind.phony.existing n c).1 ≠ .ret v := by
  have hw : wp (Kind.phony.existing n) (fun o _ => o ≠ .ret v) c := by
    apply wp_bind_of ((quiet_targetIndex n).wp c)
    · intro w c' _
      exact wp_bind_of ((quiet_asTable w).wp c') (fun _ _ _ h => by cases h) (fun _ _ _ h => by cases h)
        fun _ _ h => by cases h
    · exact fun _ _ _ h => by cases h
    · exact fun _ _ h => by cases h
  exact hw

theorem existing_dir_of_ret {c' : Core} {o : ObjId} (hi : targetIndex n c = (.ret (.obj o),c')) :
    Kind.dir.existing n c = if dirClass ∈ o::(c'.heap o).chain then targetIndex n c'
      else (.raise (.str Kind.dir.redefined),c') := by
  rw [Kind.existing,run_bind_of_ret hi]
  change (if dirClass ∈ o::(c'.heap o).chain then targetIndex n else luaError _ : Lua Value) c' = _
  exact run_ite ..

/-- A registered target is given back as it is, or refused. -/
theorem existing_registered (hn : n ≠ "defined") (hb : hasBackslash n = false) {o : ObjId}
    (hr : c.registry n = .obj o) : k.existing n c =
      if k = .dir ∧ k.prototype ∈ o::(c.heap o).chain then (.ret (.obj o),c)
      else (.raise (.str k.redefined),c) := by
  have hi : targetIndex n c = (.ret (.obj o),c) := by simp [targetIndex,hn,hb,hr]
  cases k with
  | phony =>
    rw [Kind.existing,run_bind_of_ret hi,if_neg (by simp)]
    rfl
  | dir =>
    rw [existing_dir_of_ret hi]
    by_cases hm : dirClass ∈ o::(c.heap o).chain
    · rw [if_pos hm,if_pos ⟨rfl,hm⟩,hi]
    · rw [if_neg hm,if_neg fun h => hm h.2]

/-- A declaration that returned a target has registered it, and it has the class. -/
theorem declared_registered (h : c.Kinded) (hn : n ≠ "defined") (hb : hasBackslash n = false)
    (hp : protectedMember n = .nil) {o : ObjId} (hd : (declare E (k.decl n) c).1 = .ret (.obj o)) :
    (declare E (k.decl n) c).2.registry n = .obj o ∧
      k.prototype ∈ o::((declare E (k.decl n) c).2.heap o).chain := by
  rcases declare_cases E k n c with ⟨_,_,hf⟩ | ⟨_,_,ht⟩ | ⟨e,_,he⟩
  · rw [hf] at hd ⊢
    by_cases hr : c.registry n = .nil
    · obtain ⟨c',hc,hreg,hm⟩ := derive_free (k := k) h hn hb hr
      rw [hc] at hd ⊢
      cases hd
      exact ⟨hreg,hm⟩
    · rw [derive_used hn hb hr] at hd
      cases hd
  · rw [ht] at hd ⊢
    rcases h.sound.bound n hp with hr | ⟨p,hr,_⟩
    · -- the table that the lookup makes has no class
      exfalso
      cases k with
      | phony => exact existing_phony n c _ hd
      | dir =>
        have hi : targetIndex n c = (.ret (.obj c.next),
            c.alloc (c.instance none (Function.update noFields "name" (.str n)))) := by
          simp [targetIndex,hn,hb,hr]
        have hlt : dirClass < c.next := h.sound.classes
        rw [existing_dir_of_ret hi,Core.heap_alloc_next,
          if_neg (by simp [Core.instance,hlt.ne])] at hd
        cases hd
    · rw [existing_registered hn hb hr] at hd ⊢
      split_ifs at hd ⊢ with hm
      cases hd
      exact ⟨hr,hm.2⟩
  · rw [he] at hd
    cases hd

end

/-- What a function has declared stays registered, with its class. -/
theorem Session.Run.declared {E : Env} {ok : Core → Decl → Prop} {s : Session} (h : s.Run E ok)
    {k : Kind} {n : String} (hn : n ≠ "defined") (hb : hasBackslash n = false)
    (hp : protectedMember n = .nil) {o : ObjId} (ho : (k.decl n,.ret (.obj o)) ∈ s.history) :
    s.core.registry n = .obj o ∧ k.prototype ∈ o::(s.core.heap o).chain := by
  induction h with
  | start files => cases ho
  | @step s d h _ _ ih =>
    rcases List.mem_cons.mp ho with heq | ho
    · obtain ⟨rfl,hd⟩ := Prod.mk.inj heq
      exact declared_registered h.kinded hn hb hp hd.symm
    · obtain ⟨hr,hm⟩ := ih ho
      have hx := (moves_declare E d s.core h.sound).2
      constructor
      · exact (hx.registry n (by simp [hr])).trans hr
      · have hc := hx.chain o (h.sound.registered hr)
        change k.prototype ∈ o::((declare E d s.core).2.heap o).chain
        rwa [hc]

theorem kindAsks_of_kindSafe {E : Env} {s : Session} (hk : s.core.Kinded) {k : Kind} {n : String}
    (hb : hasBackslash n = false) (h : KindSafe E s k n) : KindAsks E s k n := by
  have hused : s.core.registry n ≠ .nil → s.core.defined ≠ .nil → n ≠ "defined" := by
    rintro hr hd rfl
    exact hr (hk.proxy hd)
  refine ⟨fun hr => ?_,fun o ho hr => ?_,fun o hr hm => ?_⟩
  · obtain ⟨o,c',hc,_,hreg,_⟩ := h.new hr
    rcases declare_cases E k n s.core with ⟨hx,hd,hf⟩ | ⟨_,_,ht⟩ | ⟨e,_,he⟩
    · refine ⟨?_,hx⟩
      rintro rfl
      have hsame := derive_defined (k := k) hd
      rw [← hf,hc] at hsame
      rw [hsame,hr] at hreg
      cases hreg
    · have hsame := (quiet_existing k n s.core).registry
      rw [← ht,hc] at hsame
      rw [hsame,hr] at hreg
      cases hreg
    · rw [he] at hc
      cases hc
  · have hc := h.again o ho
    rcases declare_cases E k n s.core with ⟨_,hd,hf⟩ | ⟨hx,_,ht⟩ | ⟨e,_,he⟩
    · have hd' := derive_used (k := k) (hused hr hd) hb hr
      rw [← hf,hc] at hd'
      cases hd'
    · refine ⟨?_,hx⟩
      cases k with
      | phony => exact absurd (by rw [← ht,hc]) (existing_phony n s.core (.obj o))
      | dir => rfl
    · rw [he] at hc
      cases hc
  · obtain ⟨c',hc,_⟩ := h.other o hr hm
    have hr' : s.core.registry n ≠ .nil := by simp [hr]
    rcases declare_cases E k n s.core with ⟨_,hd,hf⟩ | ⟨hx,_,_⟩ | ⟨e,hx,he⟩
    · have hd' := derive_used (k := k) (hused hr' hd) hb hr'
      rw [← hf,hc] at hd'
      exact absurd (Value.str.inj (Outcome.raise.inj hd')) (k.redefined_ne n).symm
    · exact .inl hx
    · rw [he] at hc
      cases hc
      exact .inr hx

theorem kindSafe_of_kindAsks {E : Env} {ok : Core → Decl → Prop} {s : Session} (h : s.Run E ok)
    {k : Kind} {n : String} (hb : hasBackslash n = false) (hp : protectedMember n = .nil)
    (ha : KindAsks E s k n) : KindSafe E s k n := by
  have hk := h.kinded
  have hused : s.core.registry n ≠ .nil → s.core.defined ≠ .nil → n ≠ "defined" := by
    rintro hr hd rfl
    exact hr (hk.proxy hd)
  refine ⟨fun hr => ?_,fun o ho => ?_,fun o hr hm => ?_⟩
  · obtain ⟨hn,hx⟩ := ha.new hr
    obtain ⟨c',hc,hreg,hm⟩ := derive_free (k := k) hk hn hb hr
    exact ⟨_,c',(declare_of_false hx).1.trans hc,le_rfl,hreg,hm⟩
  · by_cases hr : s.core.registry n = .nil
    · rw [(h.declared (ha.new hr).1 hb hp ho).1] at hr
      cases hr
    · obtain ⟨rfl,hx⟩ := ha.again o ho hr
      obtain ⟨ht,hd⟩ := declare_of_true hx
      obtain ⟨hreg,hm⟩ := h.declared (hused hr hd) hb hp ho
      rw [ht,existing_registered (hused hr hd) hb hreg,if_pos ⟨rfl,hm⟩]
  · rcases ha.other o hr hm with hx | hx
    · obtain ⟨ht,hd⟩ := declare_of_true hx
      rw [ht,existing_registered (hused (by simp [hr]) hd) hb hr,if_neg fun h => hm h.2]
      exact ⟨_,rfl,rfl⟩
    · exact ⟨_,declare_of_raise hx,rfl⟩

/-- With the `defined` of mkinit.lua the law holds of every directory, and of a phony target
that nobody has declared. -/
theorem kindAsks_of_proxy {E : Env} {s : Session} (hd : s.core.defined = .fn .defined) (k : Kind)
    {n : String} (hn : n ≠ "defined") : KindAsks E s k n ↔ (k = .phony →
      (s.core.registry n ≠ .nil → ∀ o, (k.decl n,.ret (.obj o)) ∉ s.history) ∧
      ∀ o, s.core.registry n = .obj o → k.prototype ∈ o::(s.core.heap o).chain) := by
  have hphony : (targetDefined E (Kind.phony.asked n) s.core).1 = .ret false := by
    simp [targetDefined,hd,Kind.asked]
  have hdir : (targetDefined E (Kind.dir.asked n) s.core).1 =
      .ret (decide (s.core.registry n ≠ .nil)) := by
    rw [Kind.asked,targetDefined_of_proxy E hd]
  cases k with
  | phony =>
    refine ⟨fun h _ => ⟨fun hr o ho => ?_,fun o hr => ?_⟩,fun h => ?_⟩
    · cases (h.again o ho hr).1
    · by_contra hm
      rcases h.other o hr hm with hx | hx <;> rw [hphony] at hx <;> cases hx
    · obtain ⟨hagain,hother⟩ := h rfl
      exact ⟨fun _ => ⟨hn,hphony⟩,fun o ho hr => absurd ho (hagain hr o),
        fun o hr hm => absurd (hother o hr) hm⟩
  | dir =>
    refine ⟨fun _ h => (by cases h),fun _ => ⟨fun hr => ⟨hn,?_⟩,fun o _ hr => ⟨rfl,?_⟩,fun o hr _ => .inl ?_⟩⟩
    · simp [hdir,hr]
    · simp [hdir,hr]
    · simp [hdir,hr]

/-- The law holds of a declaration exactly when `target:defined` gives the answer it needs. -/
theorem kindSafe_iff {E : Env} {s : Session} (h : s.Run E fun _ _ => True) (k : Kind) {n : String}
    (hb : hasBackslash n = false) (hp : protectedMember n = .nil) :
    KindSafe E s k n ↔ KindAsks E s k n :=
  ⟨kindAsks_of_kindSafe h.kinded hb,kindSafe_of_kindAsks h hb hp⟩

/-- A directory that is declared once more. -/
theorem kindSafe_obj : KindSafe Env.plain (Session.fresh.after Env.plain (.dirTarget "obj")) .dir "obj" := by
  have hrun : (Session.fresh.after Env.plain (.dirTarget "obj")).Run Env.plain fun _ _ => True :=
    (Session.Run.start _).step (by simp [Session.Knows,Decl.uses]) trivial
  refine (kindSafe_iff hrun .dir (by decide) (by decide)).mpr ?_
  rw [kindAsks_of_proxy rfl .dir (by decide)]
  exact fun h => by cases h

/-- A phony target cannot be declared twice, and a name that stands for a command is not
refused with the message that `phony_target` has for it. -/
theorem phony_redeclared :
    let s := Session.fresh.after Env.plain (.phonyTarget "all")
    let s' := Session.fresh.after Env.plain (.assign "app" (.fn (.user 0)))
    (s.Run Env.plain (fun _ _ => True) ∧ (.phonyTarget "all",.ret (.obj 3)) ∈ s.history ∧
      (declare Env.plain (.phonyTarget "all") s.core).1 =
        .raise (.str "cannot modify protected value (or existing target) 'all'") ∧
      ¬KindSafe Env.plain s .phony "all") ∧
    s'.Run Env.plain (fun _ _ => True) ∧ s'.core.registry "app" = .obj 3 ∧
      (declare Env.plain (.phonyTarget "app") s'.core).1 =
        .raise (.str "cannot modify protected value (or existing target) 'app'") ∧
      ¬KindSafe Env.plain s' .phony "app" := by
  have hall : (declare Env.plain (.phonyTarget "all")
      (Session.fresh.after Env.plain (.phonyTarget "all")).core).1 =
      .raise (.str "cannot modify protected value (or existing target) 'all'") := by decide
  have happ : (declare Env.plain (.phonyTarget "app")
      (Session.fresh.after Env.plain (.assign "app" (.fn (.user 0)))).core).1 =
      .raise (.str "cannot modify protected value (or existing target) 'app'") := by decide
  refine ⟨⟨?_,List.mem_cons_self,hall,?_⟩,?_,by decide,happ,?_⟩
  · exact (Session.Run.start _).step (by simp [Session.Knows,Decl.uses]) trivial
  · intro h
    have ha := h.again 3 List.mem_cons_self
    rw [Kind.decl,Prod.ext_iff,hall] at ha
    cases ha.1
  · exact (Session.Run.start _).step (by simp [Session.Knows,Decl.uses]) trivial
  · intro h
    obtain ⟨c',hc,_⟩ := h.other 3 (by decide) (by decide)
    rw [Kind.decl,Prod.ext_iff,happ] at hc
    exact absurd (Value.str.inj (Outcome.raise.inj hc.1)) (Kind.redefined_ne .phony "app")

end Presto

import Presto.Registry.Update

/-! The declarations that makefiles make, their runs, and three relations between the states
before and after a piece of them, from the widest to the narrowest. -/
namespace Presto
open Program

/-- A declaration. `self` is the class whose method `new` is called, `none` for `target`. -/
inductive Decl
  | index (key : String)
  | assign (key : String) (v : Value)
  | new (self : Option ObjId) (fields : String → Value)
  | newNamed (self : Option ObjId) (key : String) (fields : String → Value)
  | phonyTarget (name : String)
  | dirTarget (dir : String)
  | dependsOn (h : Value) (list : List Value)

/-- Calling the method `new` of a class. -/
def callNew (E : Env) (self : Option ObjId) (body : Lua ObjId) : Lua Value :=
  match self with
  | none => do
    let o ← body
    pure (.obj o)
  | some p => callMethod E .new "new" p (do
    let o ← body
    pure (.obj o)) fun _ => .nil

def declare (E : Env) : Decl → Lua Value
  | .index key => targetIndex key
  | .assign key v => do
    targetNewindex key v
    pure .nil
  | .new self fields => callNew E self (newTarget self fields)
  | .newNamed self key fields => callNew E self (newNamed self key fields)
  | .phonyTarget name => phonyTarget E name
  | .dirTarget dir => dirTarget E dir
  | .dependsOn h list => do
    let o ← asTable h
    callMethod E .dependsOn "depends_on" o (dependsOn E o list) fun _ => ()
    pure .nil

/-- The values that a declaration is given. -/
def Decl.uses : Decl → List Value
  | .assign _ v => [v]
  | .new self _ => self.toList.map .obj
  | .newNamed self _ _ => self.toList.map .obj
  | .dependsOn h list => h::list
  | _ => []

/-- A process that runs makefiles, with the declarations made so far and what came of them. -/
structure Session where
  core : Core
  history : List (Decl × Outcome Value Value)

namespace Session

def after (E : Env) (s : Session) (d : Decl) : Session :=
  ⟨(declare E d s.core).2,(d,(declare E d s.core).1)::s.history⟩

/-- The table `o` came back from an earlier declaration. -/
def Handle (s : Session) (o : ObjId) : Prop := ∃ d, (d,.ret (.obj o)) ∈ s.history

/-- A declaration can only be given tables that came back from earlier ones. -/
def Knows (s : Session) (d : Decl) : Prop := ∀ o, Value.obj o ∈ d.uses → s.Handle o

/-- The sessions whose declarations all satisfy `ok`, from the start of a process on. -/
inductive Run (E : Env) (ok : Core → Decl → Prop) : Session → Prop
  | start (files : FileSystem) : Run E ok ⟨Core.init files,[]⟩
  | step {s : Session} {d : Decl} : Run E ok s → s.Knows d → ok s.core d → Run E ok (s.after E d)

theorem Run.mono {E : Env} {ok ok' : Core → Decl → Prop} {s : Session} (h : s.Run E ok)
    (hok : ∀ c d, ok c d → ok' c d) : s.Run E ok' := by
  induction h with
  | start files => exact .start files
  | step _ hk hd ih => exact ih.step hk (hok _ _ hd)

end Session

/-- The registry of a process without targets. -/
def protectedMember : String → Value := (Core.init fun _ => .absent).registry

namespace Core

/-- What every declaration keeps: the memory that is not allocated is empty, every target has
a table of dependencies, and behind the members of `__target` the registry holds targets only. -/
structure Sound (c : Core) : Prop where
  linked : c.Linked
  classes : 3 ≤ c.next
  mt : c.heap mtTable = ⟨[],false,noFields⟩
  fresh : ∀ o, c.next ≤ o → c.heap o = ⟨[],false,noFields⟩
  deps : ∀ o, (c.heap o).isTarget → ∃ s, c.rawget o "deps" = .names s
  member : ∀ k, protectedMember k ≠ .nil → c.registry k = protectedMember k
  bound : ∀ k, protectedMember k = .nil →
    c.registry k = .nil ∨ ∃ o, c.registry k = .obj o ∧ (c.heap o).isTarget

/-- `c'` has the tables of `c`, with more dependencies and other names, and more tables. -/
structure Extends (c c' : Core) : Prop where
  next : c.next ≤ c'.next
  chain : ∀ o < c.next, (c'.heap o).chain = (c.heap o).chain
  isTarget : ∀ o < c.next, (c'.heap o).isTarget = (c.heap o).isTarget
  raw : ∀ o < c.next, ∀ j, j ≠ "name" → j ≠ "deps" → c'.rawget o j = c.rawget o j
  deps : ∀ o < c.next, ∀ s, c.rawget o "deps" = .names s →
    ∃ s', c'.rawget o "deps" = .names s' ∧ s ⊆ s'
  registry : ∀ k, c.registry k ≠ .nil → c'.registry k = c.registry k

/-- No table has the field `j`. -/
def Lacks (c : Core) (j : String) : Prop := ∀ o, c.rawget o j = .nil

/-- `c'` has the tables and the registry of `c`, and may have more tables. -/
structure Quiet (c c' : Core) : Prop where
  next : c.next ≤ c'.next
  heap : ∀ o < c.next, c'.heap o = c.heap o
  registry : c'.registry = c.registry
  defined : c'.defined = c.defined
  files : c'.files = c.files
  lacks : ∀ j, j ≠ "name" → j ≠ "deps" → c.Lacks j → c'.Lacks j
  sound : c.Sound → c'.Sound

/-- The relation between the states before and after a declaration. -/
def Evolves (c c' : Core) : Prop := c.Sound → c'.Sound ∧ c.Extends c'

theorem Sound.allocated {c : Core} (h : c.Sound) (o : ObjId) (ho : (c.heap o).isTarget) :
    o < c.next := by
  by_contra hlt
  rw [h.fresh o (not_lt.mp hlt)] at ho
  cases ho

theorem Sound.attr_ne_nil {c : Core} (h : c.Sound) {o : ObjId} {key : String}
    (ho : c.attr o key ≠ .nil) : o < c.next := by
  by_contra hlt
  have hf := h.fresh o (not_lt.mp hlt)
  apply ho
  simp [attr,holder,rawget,hf,noFields]

theorem Sound.attr_mt {c : Core} (h : c.Sound) (key : String) : c.attr mtTable key = .nil := by
  simp [attr,holder,rawget,h.mt,noFields]

/-- `mt` is the only member of `__target` that is a table. -/
theorem protectedMember_table {k : String} {o : ObjId} (h : protectedMember k = .obj o) :
    o = mtTable := by
  simp only [protectedMember,Core.init] at h
  split at h <;> cases h
  rfl

/-- What is registered is allocated. -/
theorem Sound.registered {c : Core} (h : c.Sound) {k : String} {o : ObjId}
    (hk : c.registry k = .obj o) : o < c.next := by
  by_cases hp : protectedMember k = .nil
  · obtain ⟨p,hr,ht⟩ := (h.bound k hp).resolve_left (by rw [hk]; exact Value.noConfusion)
    rw [hk] at hr
    cases hr
    exact h.allocated _ ht
  · rw [protectedMember_table ((h.member k hp).symm.trans hk)]
    exact Nat.lt_of_lt_of_le (by decide) h.classes

theorem Extends.refl (c : Core) : c.Extends c :=
  ⟨le_rfl,fun _ _ => rfl,fun _ _ => rfl,fun _ _ _ _ _ => rfl,fun _ _ s h => ⟨s,h,fun _ h => h⟩,
    fun _ _ => rfl⟩

theorem Extends.trans {a b c : Core} (h : a.Extends b) (h' : b.Extends c) : a.Extends c where
  next := h.next.trans h'.next
  chain o ho := (h'.chain o (ho.trans_le h.next)).trans (h.chain o ho)
  isTarget o ho := (h'.isTarget o (ho.trans_le h.next)).trans (h.isTarget o ho)
  raw o ho j hn hd := (h'.raw o (ho.trans_le h.next) j hn hd).trans (h.raw o ho j hn hd)
  deps o ho s hs := by
    obtain ⟨t,ht,hst⟩ := h.deps o ho s hs
    obtain ⟨u,hu,htu⟩ := h'.deps o (ho.trans_le h.next) t ht
    exact ⟨u,hu,hst.trans htu⟩
  registry k hk := by
    rw [← h.registry k hk]
    exact h'.registry k (by rwa [h.registry k hk])

instance : IsPreorder Core Evolves where
  refl c hc := ⟨hc,.refl c⟩
  trans _ _ _ h h' ha := ⟨(h' (h ha).1).1,(h ha).2.trans (h' (h ha).1).2⟩

theorem sound_init (files : FileSystem) : (Core.init files).Sound := by
  have ht : ∀ o, ((Core.init files).heap o).isTarget → o = phonyClass ∨ o = dirClass := by
    intro o ho
    unfold Core.init at ho
    dsimp only at ho
    split_ifs at ho with h1 h2
    · exact .inl h1
    · exact .inr h2
  refine ⟨?_,le_rfl,rfl,?_,?_,fun _ _ => rfl,fun k hk => .inl hk⟩
  · intro o _ p ps hp
    unfold Core.init at hp
    dsimp only at hp
    split_ifs at hp
  · intro o ho
    have h : 3 ≤ o := ho
    have hp : o ≠ phonyClass := Nat.ne_of_gt (Nat.lt_of_succ_lt h)
    have hd : o ≠ dirClass := Nat.ne_of_gt h
    simp [Core.init,hp,hd]
  · intro o ho
    rcases ht o ho with rfl | rfl <;> exact ⟨∅,rfl⟩

theorem evolves_alloc {c : Core} (self : Option ObjId) (hself : ∀ p ∈ self, p < c.next)
    (fields : String → Value) : c.Evolves (c.alloc (c.instance self fields)) := by
  intro hc
  have hheap : ∀ o < c.next, (c.alloc (c.instance self fields)).heap o = c.heap o :=
    fun o ho => c.heap_alloc_of_lt _ ho
  have hmt : mtTable < c.next := Nat.lt_of_lt_of_le (by decide) hc.classes
  refine ⟨⟨hc.linked.instance self hself fields,Nat.le_succ_of_le hc.classes,?_,?_,?_,hc.member,?_⟩,
    ⟨Nat.le_succ _,?_,?_,?_,?_,fun _ _ => rfl⟩⟩
  · rw [hheap _ hmt,hc.mt]
  · intro o ho
    rw [heap_alloc_of_ne c _ (Nat.lt_of_succ_le ho).ne']
    exact hc.fresh o (Nat.le_of_succ_le ho)
  · intro o ho
    by_cases he : o = c.next
    · subst he
      exact ⟨∅,by simp [rawget,Core.instance]⟩
    · rw [heap_alloc_of_ne c _ he] at ho
      rw [rawget,hheap o (hc.allocated o ho)]
      exact hc.deps o ho
  · intro k hk
    rcases hc.bound k hk with h | ⟨o,h,ho⟩
    · exact .inl h
    · exact .inr ⟨o,h,by rwa [hheap o (hc.allocated o ho)]⟩
  · exact fun o ho => by rw [hheap o ho]
  · exact fun o ho => by rw [hheap o ho]
  · exact fun o ho j _ _ => by rw [rawget,hheap o ho]; rfl
  · exact fun o ho s hs => ⟨s,by rw [rawget,hheap o ho]; exact hs,fun _ h => h⟩

theorem evolves_register {c : Core} {key : String} {o : ObjId} (hk : c.registry key = .nil)
    (ho : (c.heap o).isTarget) : c.Evolves (c.register key o) := by
  intro hc
  have hdeps : ∀ p, (c.register key o).rawget p "deps" = c.rawget p "deps" := by
    intro p
    rw [rawget_register,if_neg (by simp)]
  have hold : ∀ k, c.registry k ≠ .nil → (c.register key o).registry k = c.registry k := by
    intro k hn
    have hne : k ≠ key := by
      rintro rfl
      exact hn hk
    by_cases hd : k = "__default"
    · subst hd
      exact c.registry_register_default key o hn hne.symm
    · exact c.registry_register_of_ne o hne hd
  refine ⟨⟨hc.linked.register key o,hc.classes,?_,?_,?_,?_,?_⟩,⟨le_rfl,?_,?_,?_,?_,hold⟩⟩
  · have hne : mtTable ≠ o := by
      rintro rfl
      rw [hc.mt] at ho
      cases ho
    rw [heap_register,heap_rawset_of_ne c hne,hc.mt]
  · intro p hp
    have hne : p ≠ o := ((hc.allocated o ho).trans_le hp).ne'
    rw [heap_register,heap_rawset_of_ne c hne]
    exact hc.fresh p hp
  · intro p hp
    rw [hdeps]
    exact hc.deps p (by rwa [isTarget_register] at hp)
  · intro k hn
    rw [hold k (by rwa [hc.member k hn]),hc.member k hn]
  · intro k hn
    simp only [isTarget_register]
    by_cases he : k = key
    · subst he
      exact .inr ⟨o,c.registry_register_self k o,ho⟩
    · by_cases hd : k = "__default" ∧ c.registry "__default" = .nil
      · obtain ⟨rfl,hd⟩ := hd
        exact .inr ⟨o,by simp [register,hd,Function.update_of_ne he],ho⟩
      · rcases hc.bound k hn with h | ⟨p,h,hp⟩
        · have hdef : k ≠ "__default" := by
            rintro rfl
            exact hd ⟨rfl,h⟩
          exact .inl (by rw [c.registry_register_of_ne o he hdef,h])
        · exact .inr ⟨p,by rw [hold k (by simp [h]),h],hp⟩
  · exact fun p _ => chain_register ..
  · exact fun p _ => isTarget_register ..
  · exact fun p _ j hj _ => by rw [rawget_register,if_neg (by simp [hj])]
  · exact fun p _ s hs => ⟨s,by rw [hdeps,hs],fun _ h => h⟩

/-- Writing a larger set of dependencies. -/
theorem evolves_setDeps {c : Core} {o : ObjId} (ho : o < c.next) (hm : o ≠ mtTable) {t : Finset String}
    (hs : ∀ s, c.rawget o "deps" = .names s → s ⊆ t) :
    c.Evolves (c.rawset o "deps" (.names t)) := by
  intro hc
  refine ⟨⟨hc.linked.rawset o "deps" _,hc.classes,?_,?_,?_,hc.member,?_⟩,
    ⟨le_rfl,?_,?_,?_,?_,fun _ _ => rfl⟩⟩
  · rw [heap_rawset_of_ne c hm.symm,hc.mt]
  · intro p hp
    rw [heap_rawset_of_ne c (ho.trans_le hp).ne']
    exact hc.fresh p hp
  · intro p hp
    rw [isTarget_rawset] at hp
    rw [rawget_rawset]
    split_ifs
    · exact ⟨t,rfl⟩
    · exact hc.deps p hp
  · intro k hk
    simp only [isTarget_rawset]
    exact hc.bound k hk
  · exact fun p _ => chain_rawset ..
  · exact fun p _ => isTarget_rawset ..
  · exact fun p _ j _ hj => by rw [rawget_rawset,if_neg (by simp [hj])]
  · intro p _ u hu
    rw [rawget_rawset]
    by_cases hp : p = o
    · subst hp
      exact ⟨t,by simp,hs u hu⟩
    · exact ⟨u,by simp [hp,hu],fun _ h => h⟩

instance : IsPreorder Core Quiet where
  refl _ := ⟨le_rfl,fun _ _ => rfl,rfl,rfl,rfl,fun _ _ _ => id,id⟩
  trans _ _ _ h h' := ⟨h.next.trans h'.next,
    fun o ho => (h'.heap o (ho.trans_le h.next)).trans (h.heap o ho),
    h'.registry.trans h.registry,h'.defined.trans h.defined,h'.files.trans h.files,
    fun j hn hd hj => h'.lacks j hn hd (h.lacks j hn hd hj),fun hs => h'.sound (h.sound hs)⟩

theorem Quiet.rawget {c c' : Core} (h : c.Quiet c') {o : ObjId} (ho : o < c.next) (j : String) :
    c'.rawget o j = c.rawget o j := by
  rw [Core.rawget,h.heap o ho]
  rfl

theorem Quiet.evolves {c c' : Core} (h : c.Quiet c') : c.Evolves c' := by
  intro hc
  refine ⟨h.sound hc,⟨h.next,?_,?_,?_,?_,?_⟩⟩
  · exact fun o ho => by rw [h.heap o ho]
  · exact fun o ho => by rw [h.heap o ho]
  · exact fun o ho j _ _ => h.rawget ho j
  · exact fun o ho s hs => ⟨s,by rw [h.rawget ho,hs],fun _ h => h⟩
  · exact fun k _ => by rw [h.registry]

theorem lacks_alloc {c : Core} {j : String} (h : c.Lacks j) {x : Obj} (hx : x.raw j = .nil) :
    (c.alloc x).Lacks j := by
  intro o
  by_cases ho : o = c.next
  · rw [ho,rawget,heap_alloc_next,hx]
  · rw [rawget,heap_alloc_of_ne c x ho]
    exact h o

/-- The table that a lookup makes has only a name and the dependencies. -/
theorem quiet_alloc (c : Core) (key : String) :
    c.Quiet (c.alloc (c.instance none (Function.update noFields "name" (.str key)))) :=
  ⟨Nat.le_succ _,fun _ ho => c.heap_alloc_of_lt _ ho,rfl,rfl,rfl,
    fun j hn hd hj => lacks_alloc hj (by simp [Core.instance,hn,hd,noFields]),
    fun hc => (evolves_alloc none (by simp) _ hc).1⟩

theorem quiet_tick (c : Core) : c.Quiet { c with tick := c.tick+1 } :=
  ⟨le_rfl,fun _ _ => rfl,rfl,rfl,rfl,fun _ _ _ h => h,fun hc =>
    ⟨hc.linked,hc.classes,hc.mt,hc.fresh,hc.deps,hc.member,hc.bound⟩⟩

theorem evolves_proxy (c : Core) (v : Value) : c.Evolves { c with defined := v } := fun hc =>
  ⟨⟨hc.linked,hc.classes,hc.mt,hc.fresh,hc.deps,hc.member,hc.bound⟩,
    ⟨le_rfl,fun _ _ => rfl,fun _ _ => rfl,fun _ _ _ _ _ => rfl,fun _ _ s hs => ⟨s,hs,fun _ h => h⟩,
      fun _ _ => rfl⟩⟩

/-- `c'` differs from `c` in dependencies and in tables that are not allocated in `c`. -/
structure Steady (c c' : Core) : Prop where
  next : c.next ≤ c'.next
  registry : c'.registry = c.registry
  defined : c'.defined = c.defined
  chain : ∀ o < c.next, (c'.heap o).chain = (c.heap o).chain
  isTarget : ∀ o < c.next, (c'.heap o).isTarget = (c.heap o).isTarget
  raw : ∀ o < c.next, ∀ j, j ≠ "deps" → c'.rawget o j = c.rawget o j
  lacks : ∀ j, j ≠ "name" → j ≠ "deps" → c.Lacks j → c'.Lacks j
  evolves : c.Evolves c'

instance : IsPreorder Core Steady where
  refl c := ⟨le_rfl,rfl,rfl,fun _ _ => rfl,fun _ _ => rfl,fun _ _ _ _ => rfl,fun _ _ _ => id,
    refl_of Evolves c⟩
  trans _ _ _ h h' := ⟨h.next.trans h'.next,h'.registry.trans h.registry,
    h'.defined.trans h.defined,
    fun o ho => (h'.chain o (ho.trans_le h.next)).trans (h.chain o ho),
    fun o ho => (h'.isTarget o (ho.trans_le h.next)).trans (h.isTarget o ho),
    fun o ho j hj => (h'.raw o (ho.trans_le h.next) j hj).trans (h.raw o ho j hj),
    fun j hn hd hj => h'.lacks j hn hd (h.lacks j hn hd hj),
    trans_of Evolves h.evolves h'.evolves⟩

theorem Quiet.steady {c c' : Core} (h : c.Quiet c') : c.Steady c' where
  next := h.next
  registry := h.registry
  defined := h.defined
  chain o ho := by rw [h.heap o ho]
  isTarget o ho := by rw [h.heap o ho]
  raw o ho j _ := h.rawget ho j
  lacks := h.lacks
  evolves := h.evolves

theorem Steady.attr {c c' : Core} (h : c.Steady c') (hc : c.Sound) {o : ObjId} (ho : o < c.next)
    {j : String} (hj : j ≠ "deps") : c'.attr o j = c.attr o j :=
  attr_congr (h.chain o ho) (fun p hp => h.raw p (hc.linked.lt_next ho hp) j hj)
    (h.isTarget o ho) fun _ => by rw [h.registry]

end Core
end Presto

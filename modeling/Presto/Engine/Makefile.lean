import Presto.Registry.Exact
import Presto.Engine.Idempotent

/-! The graphs that makefiles leave behind. Whatever declarations of file targets with commands, phony targets and
dependencies are made, and whether they succeed or not, the build begins in a graph of file and phony targets. -/
namespace Presto
open Program

/-- Under these names a target would be taken for something else: the method `defined`, the default goal, or a
field that all other targets lack. -/
def reservedNames : List String := ["defined","__default","deps_newer","command","errmsg"]

/-- A lookup, a target that is given its command, a phony target, or dependencies. -/
def Decl.Simple : Decl → Prop
  | .index key => key ∉ reservedNames
  | .assign key v => key ∉ reservedNames ∧ ∃ f, v = .fn f
  | .phonyTarget name => name ∉ reservedNames
  | .dependsOn _ list => ∀ k, .str k ∈ list → k ∉ reservedNames
  | _ => False

theorem Decl.Simple.keepsAcyclic {d : Decl} (h : d.Simple) : KeepsAcyclic d := by
  have hfree : ∀ {k : String}, k ∉ reservedNames → k ≠ "defined" ∧ k ≠ "__default" := by
    intro k hk
    simp only [reservedNames,List.mem_cons,not_or] at hk
    exact ⟨hk.1,hk.2.1⟩
  cases d with
  | index key => exact (hfree h).2
  | assign key v =>
    obtain ⟨hk,f,rfl⟩ := h
    exact ⟨(hfree hk).1,(hfree hk).2,fun o ho => by cases ho⟩
  | phonyTarget name => exact hfree h
  | dependsOn h' list => exact fun hmem => (hfree (h _ hmem)).2 rfl
  | _ => exact h.elim

namespace Core

/-- A table of a makefile: it has a name, dependencies and perhaps a command. -/
structure SimpleTable (c : Core) (o : ObjId) : Prop where
  chain : (c.heap o).chain = [] ∨ (c.heap o).chain = [phonyClass]
  blank : ∀ k, k ∉ ["name","deps","command"] → c.rawget o k = .nil
  command : c.rawget o "command" = .nil ∨ ∃ f, c.rawget o "command" = .fn f

/-- What simple declarations keep. -/
structure Simple (c : Core) : Prop where
  next : 3 ≤ c.next
  classes : ∀ o < 3, (c.heap o).chain = [] ∧ c.rawget o "name" = .nil ∧
    ∀ k, k ∉ ["name","deps"] → c.rawget o k = (Core.init fun _ => .absent).rawget o k
  tables : ∀ o, 3 ≤ o → o < c.next → c.SimpleTable o
  names : ∀ o k, c.rawget o "name" = .str k → k ∉ reservedNames
  deps : ∀ o s, c.rawget o "deps" = .names s → ∀ k ∈ s, k ∉ reservedNames
  free : ∀ k ∈ reservedNames, k ≠ "__default" → c.registry k = .nil
  values : ∀ k, (∀ s, c.registry k ≠ .str s) ∧ ∀ s, c.registry k ≠ .names s
  running : c.running = ∅
  count : c.count = 0

variable {c : Core} {o : ObjId} {key : String}

theorem Simple.init (files : FileSystem) : (Core.init files).Simple where
  next := le_rfl
  classes o ho := by
    have hraw : ∀ k, (Core.init files).rawget o k = (Core.init fun _ => .absent).rawget o k := fun k => rfl
    refine ⟨?_,?_,fun k _ => hraw k⟩
    · unfold Core.init
      dsimp only
      split_ifs <;> rfl
    · unfold Core.init rawget
      dsimp only
      split_ifs <;> rfl
  tables o h h' := absurd h' (not_lt.mpr h)
  names o k h := by
    unfold Core.init rawget at h
    dsimp only at h
    split_ifs at h
    all_goals cases h
  deps o s h := by
    unfold Core.init rawget at h
    dsimp only at h
    split_ifs at h
    all_goals cases h
    all_goals simp
  free k hk hne := by
    simp only [reservedNames,List.mem_cons,List.not_mem_nil,or_false] at hk
    obtain rfl | rfl | rfl | rfl | rfl := hk
    all_goals rfl
  values k := by
    unfold Core.init
    dsimp only
    split
    all_goals refine ⟨fun s h => ?_,fun s h => ?_⟩ <;> cases h
  running := rfl
  count := rfl

/-- A field `name` or `deps` is written. -/
theorem Simple.rawset (h : c.Simple) {v : Value} (hkey : key = "name" ∧ 3 ≤ o ∨ key = "deps")
    (hname : ∀ k, key = "name" → v = .str k → k ∉ reservedNames)
    (hdeps : ∀ s, key = "deps" → v = .names s → ∀ k ∈ s, k ∉ reservedNames) : (c.rawset o key v).Simple := by
  have hmem : key ∈ ["name","deps"] := by
    obtain ⟨rfl,_⟩ | rfl := hkey <;> decide
  have hraw : ∀ p k, k ∉ ["name","deps"] → (c.rawset o key v).rawget p k = c.rawget p k := by
    intro p k hk
    rw [rawget_rawset,if_neg]
    intro he
    rw [he.2] at hk
    exact hk hmem
  refine ⟨h.next,fun p hp => ⟨?_,?_,fun k hk => ?_⟩,fun p hp hlt => ⟨?_,fun k hk => ?_,?_⟩,fun p k hp => ?_,
    fun p s hp => ?_,h.free,h.values,h.running,h.count⟩
  · rw [chain_rawset]
    exact (h.classes p hp).1
  · rw [rawget_rawset,if_neg]
    · exact (h.classes p hp).2.1
    · intro he
      obtain ⟨_,h3⟩ | hd := hkey
      · rw [he.1] at hp
        exact absurd hp (not_lt.mpr h3)
      · rw [hd] at he
        exact absurd he.2 (by decide)
  · rw [hraw p k hk]
    exact (h.classes p hp).2.2 k hk
  · rw [chain_rawset]
    exact (h.tables p hp hlt).chain
  · rw [hraw p k (by simp only [List.mem_cons,List.not_mem_nil,or_false,not_or] at hk ⊢; exact ⟨hk.1,hk.2.1⟩)]
    exact (h.tables p hp hlt).blank k hk
  · rw [hraw p "command" (by decide)]
    exact (h.tables p hp hlt).command
  · rw [rawget_rawset] at hp
    split_ifs at hp with he
    · exact hname k he.2.symm hp
    · exact h.names p k hp
  · rw [rawget_rawset] at hp
    split_ifs at hp with he
    · exact hdeps s he.2.symm hp
    · exact h.deps p s hp

/-- A table is made. -/
theorem Simple.alloc (h : c.Simple) {x : Obj} (hchain : x.chain = [] ∨ x.chain = [phonyClass])
    (hblank : ∀ k, k ∉ ["name","deps","command"] → x.raw k = .nil)
    (hcommand : x.raw "command" = .nil ∨ ∃ f, x.raw "command" = .fn f)
    (hname : ∀ k, x.raw "name" = .str k → k ∉ reservedNames) (hdeps : x.raw "deps" = .names ∅) : (c.alloc x).Simple := by
  have hold : ∀ p, p ≠ c.next → ∀ k, (c.alloc x).rawget p k = c.rawget p k := by
    intro p hp k
    rw [rawget,heap_alloc_of_ne _ _ hp]
    rfl
  have hnew : ∀ k, (c.alloc x).rawget c.next k = x.raw k := fun k => by rw [rawget,heap_alloc_next]
  have hnext := h.next
  refine ⟨Nat.le_succ_of_le h.next,fun p hp => ?_,fun p hp hlt => ?_,fun p k hp => ?_,fun p s hp => ?_,h.free,h.values,
    h.running,h.count⟩
  · have hne : p ≠ c.next := (hp.trans_le h.next).ne
    obtain ⟨hc,hn,hk⟩ := h.classes p hp
    refine ⟨?_,(hold p hne _).trans hn,fun k hmem => (hold p hne k).trans (hk k hmem)⟩
    rw [heap_alloc_of_ne _ _ hne]
    exact hc
  · by_cases he : p = c.next
    · subst he
      refine ⟨?_,fun k hk => (hnew k).trans (hblank k hk),?_⟩
      · rw [heap_alloc_next]
        exact hchain
      · rw [hnew]
        exact hcommand
    · have hlt' : p < c.next := lt_of_le_of_ne (Nat.le_of_lt_succ hlt) he
      obtain ⟨hc,hb,hcmd⟩ := h.tables p hp hlt'
      refine ⟨?_,fun k hk => (hold p he k).trans (hb k hk),?_⟩
      · rw [heap_alloc_of_ne _ _ he]
        exact hc
      · rw [hold p he]
        exact hcmd
  · by_cases he : p = c.next
    · subst he
      rw [hnew] at hp
      exact hname k hp
    · rw [hold p he] at hp
      exact h.names p k hp
  · by_cases he : p = c.next
    · subst he
      rw [hnew,hdeps] at hp
      cases hp
      simp
    · rw [hold p he] at hp
      exact h.deps p s hp

/-- A table is registered. -/
theorem Simple.register (h : c.Simple) (ho : 3 ≤ o) (hkey : key ∉ reservedNames) : (c.register key o).Simple := by
  have hset : (c.rawset o "name" (.str key)).Simple := by
    apply h.rawset (.inl ⟨rfl,ho⟩)
    · intro k _ hv
      rw [← Value.str.inj hv]
      exact hkey
    · exact fun s he => absurd he (by decide)
  have hreg : ∀ k, (c.register key o).registry k = c.registry k ∨ (c.register key o).registry k = .obj o := by
    intro k
    by_cases hk : k = key
    · subst hk
      exact .inr (registry_register_self c k o)
    · by_cases hd : k = "__default"
      · subst hd
        by_cases hnil : c.registry "__default" = .nil
        · exact .inr (by simp [Core.register,hnil,hk])
        · exact .inl (registry_register_default c key o hnil (Ne.symm hk))
      · exact .inl (registry_register_of_ne c o hk hd)
  refine ⟨hset.next,hset.classes,fun p hp hlt => ?_,hset.names,hset.deps,fun k hk hne => ?_,fun k => ?_,hset.running,
    hset.count⟩
  · have ht := hset.tables p hp hlt
    exact ⟨ht.chain,ht.blank,ht.command⟩
  · have hkk : k ≠ key := by
      intro he
      rw [he] at hk
      exact hkey hk
    rw [registry_register_of_ne c o hkk hne]
    exact h.free k hk hne
  · obtain he | he := hreg k
    · rw [he]
      exact h.values k
    · rw [he]
      refine ⟨fun s hs => ?_,fun s hs => ?_⟩ <;> cases hs

/-- A name that is read is one that was given. -/
theorem Simple.attr_name (h : c.Simple) {k : String} (hk : c.attr o "name" = .str k) : k ∉ reservedNames ∧
    (o < 3 → False) := by
  cases hh : c.holder o "name" with
  | some p =>
    simp only [attr,hh] at hk
    refine ⟨h.names p k hk,fun ho => ?_⟩
    have hp := List.mem_of_find?_eq_some hh
    rw [(h.classes o ho).1,List.mem_singleton] at hp
    rw [hp,(h.classes o ho).2.1] at hk
    cases hk
  | none =>
    simp only [attr,hh] at hk
    split_ifs at hk
    exact absurd hk ((h.values "name").1 k)

theorem Simple.attr_deps (h : c.Simple) {s : Finset String} (hs : c.attr o "deps" = .names s) :
    ∀ k ∈ s, k ∉ reservedNames := by
  cases hh : c.holder o "deps" with
  | some p =>
    simp only [attr,hh] at hs
    exact h.deps p s hs
  | none =>
    simp only [attr,hh] at hs
    split_ifs at hs
    exact absurd hs ((h.values "deps").2 s)

/-- The relation of a state to one that is simple if it is. -/
def Abides (c c' : Core) : Prop := c.Simple → c'.Simple

instance : IsPreorder Core Abides where
  refl _ := id
  trans _ _ _ h h' hc := h' (h hc)

end Core

section
variable {α : Type} {E : Env}

theorem abides_raise (e : Value) : Moves Core.Abides (Prog.raise e : Lua α) := moves_raise e

theorem abides_targetIndex {key : String} (hkey : key ∉ reservedNames) : Moves Core.Abides (targetIndex key) := by
  intro c hc
  obtain ⟨_,_,h⟩ | ⟨_,_,_,h⟩ | ⟨_,_,_,h⟩ | ⟨_,_,_,h⟩ := targetIndex_cases key c
  · rw [h]
    exact hc
  · rw [h]
    exact hc
  · rw [h]
    exact hc
  · rw [h]
    refine hc.alloc (.inl rfl) (fun k hk => ?_) (.inl rfl) (fun k hk => ?_) rfl
    · simp only [List.mem_cons,List.not_mem_nil,or_false,not_or] at hk
      simp [Core.instance,hk.1,hk.2.1,noFields]
    · obtain rfl := Value.str.inj (show Value.str key = .str k from hk)
      exact hkey

theorem abides_targetDefined (key : Value) : Moves Core.Abides (targetDefined E key) := by
  intro c hc
  have hstate : (targetDefined E key c).2 = c := by
    unfold targetDefined
    simp only [run_bind_gets,id]
    cases c.defined with
    | fn f =>
      cases f with
      | defined => cases key <;> rfl
      | _ => rw [snd_run_bind_pure]; rfl
    | _ => rfl
  rw [hstate]
  exact hc

theorem abides_asTable (v : Value) : Moves Core.Abides (asTable v) := by
  cases v <;> exact fun c => id

/-- The first assignment of a target under its own name. -/
theorem abides_register {key : String} (hkey : key ∉ reservedNames) {o : ObjId} (ho : 3 ≤ o) :
    Moves Core.Abides (targetNewindex key (.obj o)) := by
  have hdef : key ≠ "defined" := by
    intro he
    rw [he] at hkey
    exact hkey (by decide)
  intro c hc
  obtain ⟨hx,_⟩ | ⟨_,_,h⟩ | ⟨_,_,_,⟨f,hf,_⟩ | ⟨p,hp,_,h⟩⟩ := targetNewindex_cases key (.obj o) c
  · exact absurd hx hdef
  · rw [h]
    exact hc
  · cases hf
  · rw [h]
    cases hp
    exact hc.register ho hkey

theorem abides_checkForCycle (n : ℕ) (self : ObjId) (t d : String) :
    Moves Core.Abides (checkForCycle E n self t d) := by
  induction n generalizing self with
  | zero => exact abides_raise _
  | succ n ih =>
    intro c hc
    unfold checkForCycle
    change wp _ (fun _ c' => c'.Simple) c
    rw [wp_bind_gets,wp_ite]
    split_ifs
    · exact hc
    · obtain ⟨s,hs,h⟩ | ⟨e,h⟩ := readDeps_cases self c
      · apply wp_bind_ret h
        have hall := hc.attr_deps hs
        have hrun : enumerate E s c = (.ret (E.names.order c.tick s),{ c with tick := c.tick+1 }) := rfl
        apply wp_bind_ret hrun
        have htick : { c with tick := c.tick+1 }.Simple :=
          ⟨hc.next,hc.classes,fun o h h' => ⟨(hc.tables o h h').chain,(hc.tables o h h').blank,(hc.tables o h h').command⟩,
            hc.names,hc.deps,hc.free,hc.values,hc.running,hc.count⟩
        have hloop : wp (forEach (γ := Empty) (fun k _ => do
            let v ← targetIndex k
            let dep ← asTable v
            callMethod E .checkForCycle "check_for_cycle" dep (checkForCycle E n dep t d) fun _ => ()
            pure (.next ())) (E.names.order c.tick s) ()) (fun _ c' => c'.Simple) { c with tick := c.tick+1 } := by
          apply wp_forEach fun l _ c' => c'.Simple ∧ ∀ k ∈ l, k ∉ reservedNames
          · intro k l _ c' hc'
            obtain ⟨hc',hl⟩ := hc'
            have hbody : Moves Core.Abides (do
                let v ← targetIndex k
                let dep ← asTable v
                callMethod E .checkForCycle "check_for_cycle" dep (checkForCycle E n dep t d) fun _ => ()
                pure (.next ()) : Lua (Step Unit Empty)) := by
              refine moves_bind (abides_targetIndex (hl k List.mem_cons_self)) fun v => ?_
              refine moves_bind (abides_asTable v) fun dep => ?_
              refine moves_bind (fun c => ?_) fun _ => moves_pure _
              exact moves_callMethod E fun _ => ih dep c
            have hrest : ∀ k ∈ l, k ∉ reservedNames := fun k hk => hl k (List.mem_cons_of_mem _ hk)
            apply wp_mono (hbody.wp c')
            intro r c'' hmove
            have hc'' := hmove hc'
            cases r with
            | ret x =>
              cases x with
              | next _ => exact ⟨hc'',hrest⟩
              | stop _ => exact hc''
              | leave x => cases x
            | raise e => exact hc''
            | diverge => exact hc''
          · exact fun _ _ hc' => hc'.1
          · exact ⟨htick,fun k hk => hall k ((E.names.mem_order _ _ k).mp hk)⟩
        apply wp_bind_of hloop
        · exact fun _ _ hc' => hc'
        · exact fun _ _ hc' => hc'
        · exact fun _ hc' => hc'
      · exact wp_bind_raise h hc

theorem abides_registerSelf (self : ObjId) : Moves Core.Abides (registerSelf E self) := by
  intro c hc
  change wp (registerSelf E self) (fun _ c' => c'.Simple) c
  unfold registerSelf
  rw [wp_bind_gets]
  dsimp only [id]
  apply wp_bind_of ((abides_targetDefined (E := E) (c.attr self "name")).wp c)
  · intro known c₁ h₁
    rw [wp_ite]
    split_ifs
    · exact h₁ hc
    · cases hn : c.attr self "name" with
      | str name =>
        obtain ⟨hname,hself⟩ := hc.attr_name hn
        exact (abides_register hname (not_lt.mp hself)) c₁ (h₁ hc)
      | _ => exact h₁ hc
  · exact fun _ _ h₁ => h₁ hc
  · exact fun _ h₁ => h₁ hc

theorem abides_insertDep (self : ObjId) {name : String} (hname : name ∉ reservedNames) :
    Moves Core.Abides (insertDep self name) := by
  intro c hc
  unfold insertDep
  obtain ⟨s,hs,h⟩ | ⟨e,h⟩ := readDeps_cases self c
  · rw [run_bind_of_ret h]
    apply hc.rawset (.inr rfl)
    · exact fun k he => absurd he (by decide)
    · intro t _ ht k hk
      obtain rfl := Value.names.inj ht
      obtain rfl | hk := Finset.mem_insert.mp hk
      · exact hname
      · exact hc.attr_deps hs k hk
  · rw [run_bind_of_raise h]
    exact hc

theorem abides_addDependency (self : ObjId) (v : Value) : Moves Core.Abides (addDependency E self v) := by
  intro c hc
  change wp (addDependency E self v) (fun _ c' => c'.Simple) c
  unfold addDependency
  rw [wp_bind_gets]
  dsimp only [id]
  cases v with
  | obj o =>
    dsimp only
    rw [wp_ite]
    split_ifs
    · cases hn : c.attr o "name" with
      | str name =>
        have hinsert := abides_insertDep self (hc.attr_name hn).1
        cases c.attr self "name" with
        | str own =>
          dsimp only
          have hbody : Moves Core.Abides (do
              if c.registry name ≠ .nil then
                let root ← asTable (c.registry name)
                callMethod E .checkForCycle "check_for_cycle" root
                  (checkForCycle E E.stack root own name) fun _ => ()
              insertDep self name : Lua Unit) := by
            refine moves_ite ?_ hinsert
            refine moves_bind (abides_asTable _) fun root => moves_bind (fun c => ?_) fun _ => hinsert
            exact moves_callMethod E fun _ => abides_checkForCycle _ root own name c
          exact hbody c hc
        | _ => exact hc
      | _ => exact hc
    · exact hc
  | _ => exact hc

theorem abides_dependsOn (self : ObjId) {list : List Value} (hlist : ∀ k, .str k ∈ list → k ∉ reservedNames) :
    Moves Core.Abides (dependsOn E self list) := by
  have hentry : ∀ v ∈ list, Moves Core.Abides (dependsOnEntry E self v) := by
    intro v hv
    by_cases hs : ∃ name, v = .str name
    · obtain ⟨name,rfl⟩ := hs
      refine moves_bind (abides_targetIndex (hlist name hv)) fun dep => ?_
      exact moves_bind (abides_registerSelf self) fun _ => abides_addDependency self dep
    · rw [dependsOnEntry_of_not_str E fun s he => hs ⟨s,he⟩]
      exact abides_addDependency self v
  unfold dependsOn dependsOnEntries
  refine moves_bind (abides_registerSelf self) fun _ => moves_bind ?_ fun _ => moves_pure _
  intro c hc
  have hloop : wp (forEach (γ := Empty) (fun v _ => do
      dependsOnEntry E self v
      pure (.next ())) (list.takeWhile fun v => v ≠ .nil) ()) (fun _ c' => c'.Simple) c := by
    apply wp_forEach fun l _ c' => c'.Simple ∧ ∀ v ∈ l, v ∈ list
    · intro v l _ c' hc'
      obtain ⟨hc',hl⟩ := hc'
      apply wp_bind_of ((hentry v (hl v List.mem_cons_self)).wp c')
      · exact fun _ c'' h => ⟨h hc',fun u hu => hl u (List.mem_cons_of_mem _ hu)⟩
      · exact fun _ c'' h => h hc'
      · exact fun c'' h => h hc'
    · exact fun _ _ hc' => hc'.1
    · exact ⟨hc,fun v hv => List.takeWhile_subset _ hv⟩
  exact hloop

theorem abides_phonyTarget {name : String} (hname : name ∉ reservedNames) : Moves Core.Abides (phonyTarget E name) := by
  refine moves_bind (abides_targetDefined _) fun known => moves_ite ?_ ?_
  · refine moves_bind (abides_targetIndex hname) fun v => moves_bind (abides_asTable v) fun _ => ?_
    exact moves_raise _
  · intro c hc
    have hnext := hc.next
    have hphony := hc.classes phonyClass (by decide)
    have halloc : (c.alloc (c.instance (some phonyClass) noFields)).Simple := by
      refine hc.alloc (.inr ?_) (fun k hk => ?_) (.inl rfl) (fun k hk => ?_) rfl
      · simp [Core.instance,hphony.1]
      · simp only [List.mem_cons,List.not_mem_nil,or_false,not_or] at hk
        simp [Core.instance,hk.2.1,noFields]
      · cases (show Value.nil = .str k from hk)
    have hrest : Moves Core.Abides (do
        targetNewindex name (.obj c.next)
        targetIndex name : Lua Value) :=
      moves_bind (abides_register hname hnext) fun _ => abides_targetIndex hname
    exact hrest _ halloc

/-- Every simple declaration keeps what simple declarations keep. -/
theorem abides_declare {d : Decl} (hd : d.Simple) : Moves Core.Abides (declare E d) := by
  cases d with
  | index key => exact abides_targetIndex hd
  | assign key v =>
    obtain ⟨hkey,f,rfl⟩ := hd
    refine moves_bind ?_ fun _ => moves_pure _
    have hdef : key ≠ "defined" := by
      intro he
      rw [he] at hkey
      exact hkey (by decide)
    intro c hc
    obtain ⟨hx,_⟩ | ⟨_,_,h⟩ | ⟨_,_,_,⟨g,_,h⟩ | ⟨p,hp,_⟩⟩ := targetNewindex_cases key (.fn f) c
    · exact absurd hx hdef
    · rw [h]
      exact hc
    · rw [h]
      have hcommand : ∀ k, k ≠ "deps" → k ≠ "command" →
          (c.instance none (Function.update noFields "command" (.fn g))).raw k = .nil := by
        intro k hdeps hcmd
        simp [Core.instance,hdeps,hcmd,noFields]
      have halloc : (c.alloc (c.instance none (Function.update noFields "command" (.fn g)))).Simple := by
        refine hc.alloc (.inl rfl) (fun k hk => ?_) (.inr ⟨g,rfl⟩) (fun k hk => ?_) rfl
        · simp only [List.mem_cons,List.not_mem_nil,or_false,not_or] at hk
          exact hcommand k hk.2.1 hk.2.2
        · rw [hcommand "name" (by decide) (by decide)] at hk
          cases hk
      exact halloc.register hc.next hkey
    · cases hp
  | phonyTarget name => exact abides_phonyTarget hd
  | dependsOn v list =>
    refine moves_bind (abides_asTable v) fun o => moves_bind (fun c => ?_) fun _ => moves_pure _
    exact moves_callMethod E fun _ => abides_dependsOn o hd c
  | _ => exact hd.elim

theorem simple_of_run {s : Session} (h : s.Run E fun _ d => d.Simple) : s.core.Simple := by
  induction h with
  | start files => exact Core.Simple.init files
  | step _ _ hd ih => exact abides_declare hd _ ih

end

namespace Core
variable {c : Core} {log : List (String × ObjId)} {o p : ObjId} {m n : String}

/-- A field that no declaration gives a table. -/
theorem Simple.lacks (h : c.Simple) (hs : c.Sound) {k : String}
    (hk : k ∉ ["name","deps","command","exists","timestamp"]) : c.Lacks k := by
  simp only [List.mem_cons,List.not_mem_nil,or_false,not_or] at hk
  intro o
  by_cases h3 : o < 3
  · rw [(h.classes o h3).2.2 k (by simp [hk.1,hk.2.1])]
    unfold Core.init rawget
    dsimp only
    split_ifs
    · dsimp only
      split <;> first | rfl | grind
    · dsimp only
      split <;> first | rfl | grind
    · rfl
  · by_cases hlt : o < c.next
    · exact (h.tables o (not_lt.mp h3) hlt).blank k (by simp [hk.1,hk.2.1,hk.2.2.1])
    · rw [rawget,hs.fresh o (not_lt.mp hlt)]
      rfl

/-- What is registered as a target has a name of its own, under which it is found. -/
theorem Represents.entry (h : c.Represents log) (hm : c.registry m = .obj o) (ht : (c.heap o).isTarget) :
    ∃ k, (k,o) ∈ log ∧ (m ≠ "__default" → k = m) := by
  have hp : protectedMember m = .nil := by
    by_contra hp
    have he := (h.sound.member m hp).symm.trans hm
    rw [protectedMember_table he,h.sound.mt] at ht
    cases ht
  by_cases hd : m = "__default"
  · subst hd
    have hfirst := h.first.symm.trans hm
    cases log with
    | nil => cases hfirst
    | cons e es =>
      refine ⟨e.1,?_,fun h => absurd rfl h⟩
      rw [← Value.obj.inj (show Value.obj e.2 = .obj o from hfirst)]
      exact List.mem_cons_self
  · have hmem : m ∈ log.map Prod.fst := by
      by_contra hno
      exact absurd ((h.rest m hp hd hno).symm.trans hm) (by simp)
    obtain ⟨e,he,rfl⟩ := List.mem_map.mp hmem
    refine ⟨e.1,?_,fun _ => rfl⟩
    rw [← Value.obj.inj ((h.bound e he).symm.trans hm)]
    exact he

theorem Represents.finds (h : c.Represents log) (he : (m,o) ∈ log) : Finds c.registry m o :=
  ⟨h.bound _ he,(h.free _ he).2.2,(h.free _ he).2.1⟩

/-- The dependencies between tables have no cycle, as those between names have none. -/
theorem Checked.feeds_acyclic (h : c.Checked log) (hs : c.Simple) : Acyclic c.Feeds := by
  have hdeps : ∀ {o m}, m ∈ c.deps o → m ≠ "__default" := by
    intro o m hm
    unfold deps at hm
    cases hraw : c.rawget o "deps" with
    | names s =>
      rw [hraw] at hm
      intro he
      subst he
      exact hs.deps o s hraw _ hm (by decide)
    | _ => simp [hraw] at hm
  have hpath : ∀ {o p}, Relation.TransGen c.Feeds o p → ∀ n, n ≠ "__default" → c.registry n = .obj o →
      ∃ m, m ≠ "__default" ∧ c.registry m = .obj p ∧ Relation.TransGen c.Edge n m := by
    intro o p hop n hn hreg
    induction hop with
    | single hf =>
      obtain ⟨m,hm,hp⟩ := hf
      exact ⟨m,hdeps hm,hp,.single ⟨hn,o,hreg,hm⟩⟩
    | tail _ hf ih =>
      obtain ⟨k,hk,hkreg,hpath⟩ := ih
      obtain ⟨m,hm,hp⟩ := hf
      exact ⟨m,hdeps hm,hp,hpath.tail ⟨hk,_,hkreg,hm⟩⟩
  intro o ho
  obtain ⟨p,_,hlast⟩ := Relation.TransGen.tail'_iff.mp ho
  obtain ⟨n,hn,hreg⟩ := hlast
  have hn' := hdeps hn
  obtain ⟨m,hm,hmreg,hcycle⟩ := hpath ho n hn' hreg
  obtain ⟨k,_,hedge⟩ := Relation.TransGen.tail'_iff.mp hcycle
  have hprotected := (h.nameable k m hedge).2.2.2
  have ht : (c.heap o).isTarget := by
    obtain hnil | ⟨q,hq,ht⟩ := h.represents.sound.bound m hprotected
    · exact absurd (hnil.symm.trans hmreg) (by simp)
    · rw [← Value.obj.inj (hq.symm.trans hmreg)]
      exact ht
  -- both names are the one that the table has
  obtain ⟨k₁,hk₁,hn₁⟩ := h.represents.entry hreg ht
  obtain ⟨k₂,hk₂,hm₂⟩ := h.represents.entry hmreg ht
  have hsame : k₁ = k₂ :=
    Value.str.inj ((h.represents.named _ hk₁).2.symm.trans (h.represents.named _ hk₂).2)
  rw [← hn₁ hn',← hm₂ hm,hsame] at hcycle
  exact h.acyclic _ hcycle

theorem Simple.ready (h : c.Simple) (hc : c.Checked log) : c.Ready where
  sound := hc.represents.sound
  proxy o ho := by
    rw [hc.represents.proxy] at ho
    cases ho
  named m o hm ht := by
    obtain ⟨k,hk,_⟩ := hc.represents.entry hm ht
    exact ⟨k,(hc.represents.named _ hk).2,hc.represents.finds hk⟩
  acyclic := hc.feeds_acyclic h
  unbuilt := h.lacks hc.represents.sound (by decide)
  newer o := by
    have hnil := h.lacks hc.represents.sound (k := "deps_newer") (by decide) o
    unfold NewerOk
    rw [hnil]
    exact ⟨by simp,fun d => by simp⟩
  running := h.running
  count := h.count

/-- A registered target is no class. -/
theorem Represents.not_class (h : c.Represents log) (hs : c.Simple) (hm : c.registry m = .obj o)
    (ht : (c.heap o).isTarget) : 3 ≤ o := by
  obtain ⟨k,hk,_⟩ := h.entry hm ht
  by_contra hlt
  have hnil := (hs.classes o (not_le.mp hlt)).2.1
  rw [(h.named _ hk).2] at hnil
  cases hnil

theorem Simple.fileGraph (h : c.Simple) (hc : c.Checked log) : c.FileGraph := by
  have hs := hc.represents.sound
  have hclass : ∀ {m o}, c.registry m = .obj o → (c.heap o).isTarget → 3 ≤ o :=
    fun hm ht => hc.represents.not_class h hm ht
  have htable : ∀ {m o}, c.registry m = .obj o → (c.heap o).isTarget → c.SimpleTable o := fun hm ht =>
    h.tables _ (hclass hm ht) (hs.allocated _ ht)
  have hcommand : ∀ p, (∃ f, c.rawget p "command" = .fn f) ∨ (c.rawget p "command").truthy = false := by
    intro p
    by_cases h3 : p < 3
    · rw [(h.classes p h3).2.2 "command" (by decide)]
      unfold Core.init rawget
      dsimp only
      split_ifs
      · exact .inl ⟨_,rfl⟩
      · exact .inl ⟨_,rfl⟩
      · exact .inr rfl
    · by_cases hlt : p < c.next
      · obtain hnil | hf := (h.tables p (not_lt.mp h3) hlt).command
        · right
          rw [hnil]
          rfl
        · exact .inl hf
      · right
        rw [rawget,hs.fresh p (not_lt.mp hlt)]
        rfl
  have hroots : ∀ m o, c.registry m = .obj o → (c.heap o).isTarget → ∀ p ∈ (c.heap o).chain, ∀ n,
      ¬(c.registry n = .obj p ∧ (c.heap p).isTarget) := by
    intro m o hm ht p hp n hn
    have hp' : p = phonyClass := by
      obtain hchain | hchain := (htable hm ht).chain
      · rw [hchain] at hp
        cases hp
      · rw [hchain] at hp
        exact List.mem_singleton.mp hp
    subst hp'
    exact absurd (hclass hn.1 hn.2) (by decide)
  refine ⟨⟨h.ready hc,.inl (h.free _ (by decide) (by decide)),⟨h.free _ (by decide) (by decide),fun _ _ _ p _ => hcommand p⟩,
    fun _ _ _ p _ => h.lacks hs (by decide) p,h.lacks hs (by decide),hroots⟩,h.free _ (by decide) (by decide),
    fun m o hm ht => (htable hm ht).chain,fun m o hm ht x hx => ?_,fun x hx => ?_,fun x hx => ?_⟩
  · apply (htable hm ht).blank
    obtain ⟨he,_⟩ | ⟨he,_⟩ := cachedFields_cases hx
    · rw [he]
      decide
    · rw [he]
      decide
  · apply h.lacks hs
    obtain ⟨_,he⟩ | ⟨_,he⟩ := cachedFields_cases hx
    · rw [he]
      decide
    · rw [he]
      decide
  · obtain ⟨he,_⟩ | ⟨he,_⟩ := cachedFields_cases hx
    · rw [he,(h.classes phonyClass (by decide)).2.2 _ (by decide)]
      rfl
    · rw [he,(h.classes phonyClass (by decide)).2.2 _ (by decide)]
      rfl

end Core

/-- The goals are no part of the graph. -/
theorem Core.FileGraph.withGoals {c : Core} (h : c.FileGraph) (goals : Finset String) : { c with goals := goals }.FileGraph where
  ready := ⟨⟨h.ready.sound.linked,h.ready.sound.classes,h.ready.sound.mt,h.ready.sound.fresh,h.ready.sound.deps,
    h.ready.sound.member,h.ready.sound.bound⟩,h.ready.proxy,h.ready.named,h.ready.acyclic,h.ready.unbuilt,h.ready.newer,
    h.ready.running,h.ready.count⟩
  safe := h.safe
  callable := h.callable
  method := h.method
  unfailed := h.unfailed
  roots := h.roots
  newer := h.newer
  chain := h.chain
  plain := h.plain
  getters := h.getters
  phony := h.phony

theorem fileGraph_of_run {E : Env} {s : Session} (h : s.Run E fun _ d => d.Simple) : s.core.FileGraph := by
  obtain ⟨log,hlog⟩ := (h.mono fun _ _ => Decl.Simple.keepsAcyclic).open
  exact (simple_of_run h).fileGraph hlog.checked

/-- A makefile of simple declarations leaves a graph of file and phony targets, with any goals. -/
theorem makefile_fileGraph {E : Env} {s : Session} (h : s.Run E fun _ d => d.Simple) (goals : Finset String) :
    { s.core with goals := goals }.FileGraph := (fileGraph_of_run h).withGoals goals

theorem library_run : Session.library.Run Env.plain fun _ d => d.Simple := by
  have happ : (Session.fresh.after Env.plain (.assign "app" (.fn (.user 0)))).Run Env.plain fun _ d => d.Simple :=
    (Session.Run.start _).step (by simp [Session.Knows,Decl.uses]) ⟨by decide,_,rfl⟩
  have hlib := happ.step (d := .assign "lib" (.fn (.user 1))) (by simp [Session.Knows,Decl.uses]) ⟨by decide,_,rfl⟩
  have hindex := hlib.step (d := .index "app") (by simp [Session.Knows,Decl.uses])
    (show "app" ∉ reservedNames by decide)
  refine hindex.step (fun o ho => ?_) (fun k hk => ?_)
  · simp only [Decl.uses,List.mem_cons,Value.obj.injEq,List.not_mem_nil,or_false,reduceCtorEq] at ho
    subst ho
    exact ⟨_,List.mem_cons_self⟩
  · simp only [List.mem_cons,Value.str.injEq,List.not_mem_nil,or_false] at hk
    rw [hk]
    decide

theorem makefile_fileGraph_library : { Session.library.core with goals := {"app"} }.FileGraph :=
  makefile_fileGraph library_run {"app"}

end Presto

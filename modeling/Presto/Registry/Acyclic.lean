import Presto.Registry.Cycle

/-! Runs of declarations under which the graph of registered names stays acyclic and every
dependency is checked exactly. -/
namespace Presto
open Program

/-- The declarations of makefiles that use neither `target["defined"]` nor the slot `__default`. -/
def KeepsAcyclic : Decl → Prop
  | .index key => key ≠ "__default"
  | .assign key v => key ≠ "defined" ∧ key ≠ "__default" ∧ ∀ o, v ≠ .obj o
  | .new _ _ => False
  | .newNamed self key fields => self = none ∧ key ≠ "defined" ∧ key ≠ "__default" ∧
    ∀ m ∈ declMethods, fields m = .nil
  | .phonyTarget name => name ≠ "defined" ∧ name ≠ "__default"
  | .dirTarget dir => dir ≠ "defined" ∧ dir ≠ "__default"
  | .dependsOn _ list => .str "__default" ∉ list

theorem KeepsAcyclic.plain {d : Decl} (h : KeepsAcyclic d) : Plain d := by
  cases d with
  | assign key v => exact ⟨h.1,h.2.2⟩
  | newNamed self key fields => exact ⟨h.1,h.2.1,h.2.2.2⟩
  | phonyTarget name => exact h.1
  | dirTarget dir => exact h.1
  | new self fields => exact h
  | _ => trivial

/-- A handle whose name may still be unknown; then it has no dependencies. -/
def OpenHandle (c : Core) (t : ObjId) : Prop := t < c.next ∧ (t = mtTable ∨
  (c.heap t).isTarget ∧ ∃ m, Nameable m ∧ c.rawget t "name" = .str m ∧
    (c.registry m = .nil → c.deps t = ∅))

/-- Only the dependencies of `self` may differ in `c'`. -/
def DepsFrame (self : Option ObjId) (c c' : Core) : Prop :=
  c.next ≤ c'.next ∧ ∀ o < c.next, self ≠ some o → c'.deps o = c.deps o

instance (self : Option ObjId) : IsPreorder Core (DepsFrame self) where
  refl _ := ⟨le_rfl,fun _ _ _ => rfl⟩
  trans _ _ _ h h' := ⟨h.1.trans h'.1,
    fun o ho hne => (h'.2 o (ho.trans_le h.1) hne).trans (h.2 o ho hne)⟩

section Frame
variable (E : Env) {self : Option ObjId}

theorem Core.Quiet.depsFrame (c c' : Core) (h : c.Quiet c') : DepsFrame self c c' :=
  ⟨h.next,fun _ ho _ => h.deps ho⟩

theorem depsFrame_alloc (c : Core) (x : Obj) : DepsFrame self c (c.alloc x) := by
  refine ⟨Nat.le_succ _,fun o ho _ => Core.deps_congr ?_⟩
  rw [Core.rawget,c.heap_alloc_of_lt x ho]
  rfl

@[simp] theorem deps_register (c : Core) (key : String) (t o : ObjId) :
    (c.register key t).deps o = c.deps o := by
  apply Core.deps_congr
  rw [Core.rawget_register,if_neg (by simp)]

theorem depsFrame_targetNewindex (key : String) (v : Value) :
    Moves (DepsFrame self) (targetNewindex key v) := by
  intro c
  rcases targetNewindex_cases key v c with ⟨_,_,h⟩ | ⟨_,_,h⟩ | ⟨_,_,_,⟨f,_,h⟩ | ⟨o,_,_,h⟩⟩ <;>
    rw [h]
  · exact ⟨le_rfl,fun _ _ _ => rfl⟩
  · exact refl_of (DepsFrame self) c
  · have hreg : ∀ c' : Core, DepsFrame self c' (c'.register key c.next) :=
      fun _ => ⟨le_rfl,fun _ _ _ => deps_register ..⟩
    exact trans_of (DepsFrame self) (depsFrame_alloc c _) (hreg _)
  · exact ⟨le_rfl,fun _ _ _ => deps_register ..⟩

theorem depsFrame_insertDep (o : ObjId) (name : String) :
    Moves (DepsFrame (some o)) (insertDep o name) := by
  intro c
  unfold insertDep
  rcases readDeps_cases o c with ⟨s,_,h⟩ | ⟨e,h⟩
  · rw [run_bind_of_ret h]
    refine ⟨le_rfl,fun p _ hne => ?_⟩
    have hp : p ≠ o := fun hp => hne (by rw [hp])
    change (c.rawset o "deps" _).deps p = _
    simp [Core.deps,hp]
  · rw [run_bind_of_raise h]
    exact refl_of (DepsFrame (some o)) c

/-- The target whose dependencies a declaration may change. -/
def Decl.changes : Decl → Option ObjId
  | .dependsOn (.obj o) _ => some o
  | _ => none

theorem depsFrame_declare {d : Decl} (hd : Plain d) :
    Moves (DepsFrame d.changes) (declare E d) := by
  cases d with
  | index key => exact (quiet_targetIndex key).mono Core.Quiet.depsFrame
  | assign key v => exact moves_bind (depsFrame_targetNewindex key v) fun _ => moves_pure _
  | new self fields => exact absurd hd id
  | newNamed self key fields =>
    obtain ⟨rfl,_⟩ := hd
    refine moves_bind (moves_bind (fun c => depsFrame_alloc c _) fun o => ?_) fun _ => moves_pure _
    exact moves_bind (depsFrame_targetNewindex key _) fun _ => moves_pure _
  | phonyTarget name =>
    exact moves_phonyTarget_of Core.Quiet.depsFrame E name
      (moves_derive_of Core.Quiet.depsFrame _ (fun c => depsFrame_alloc c _)
        depsFrame_targetNewindex name)
  | dirTarget dir =>
    exact moves_dirTarget_of Core.Quiet.depsFrame E dir
      (moves_derive_of Core.Quiet.depsFrame _ (fun c => depsFrame_alloc c _)
        depsFrame_targetNewindex dir)
  | dependsOn v list =>
    cases v with
    | obj o =>
      intro c
      change DepsFrame (some o) c ((callMethod E .dependsOn "depends_on" o (dependsOn E o list)
        (fun _ => ()) >>= fun _ => pure Value.nil : Lua Value) c).2
      rw [snd_run_bind_pure]
      exact moves_callMethod E fun _ => moves_dependsOn_of Core.Quiet.depsFrame E
        (fun key => depsFrame_targetNewindex key _) (depsFrame_insertDep o) list c
    | _ => exact fun c => refl_of (DepsFrame none) c

end Frame
section Checked
variable {E : Env} {c : Core} {log : List (String × ObjId)}

theorem Core.Checked.alloc (h : c.Checked log) {self : Option ObjId} (hself : ∀ p ∈ self, p < c.next)
    {fields : String → Value} (hf : ∀ m ∈ declMethods, fields m = .nil) :
    (c.alloc (c.instance self fields)).Checked log := by
  have hedge : (c.alloc (c.instance self fields)).Edge = c.Edge :=
    Core.edge_congr rfl fun _ _ ho => (show DepsFrame none c _ from depsFrame_alloc c _).2 _
      (h.represents.sound.registered ho) (by simp)
  refine ⟨h.represents.alloc self hself fields,?_,hedge ▸ h.acyclic,hedge ▸ h.nameable⟩
  exact fun m hm => keepsMethods_newTarget self hf c m hm (h.methods m hm)

/-- A target without dependencies gets a name. -/
theorem Core.Checked.register (h : c.Checked log) {key : String} {o : ObjId} (hd : key ≠ "defined")
    (hb : hasBackslash key = false) (hk : c.registry key = .nil) (ht : (c.heap o).isTarget)
    (ho : ∀ k, c.registry k ≠ .obj o) (hdeps : c.deps o = ∅) :
    (c.register key o).Checked (log++[(key,o)]) := by
  have hsub : ∀ n m, (c.register key o).Edge n m → c.Edge n m := by
    rintro n m ⟨hn,p,hp,hm⟩
    rw [deps_register] at hm
    by_cases he : n = key
    · subst he
      rw [Core.registry_register_self] at hp
      cases hp
      rw [hdeps] at hm
      cases hm
    · rw [c.registry_register_of_ne o he hn] at hp
      exact ⟨hn,p,hp,hm⟩
  refine ⟨h.represents.register hd hb hk ht ho,?_,h.acyclic.mono hsub,?_⟩
  · exact fun m hm => keepsMethods_register c key o m hm (h.methods m hm)
  · exact fun n m he => h.nameable n m (hsub n m he)

/-- After a piece of a declaration at most one name has been registered. -/
def CheckedMore (log : List (String × ObjId)) (c' : Core) : Prop :=
  ∃ more, c'.Checked (log++more) ∧ more.length ≤ 1 ∧ ∀ e ∈ more, e.1 ≠ "__default"

theorem Core.Checked.more (h : c.Checked log) : CheckedMore log c :=
  ⟨[],by rwa [List.append_nil],Nat.zero_le _,by simp⟩

/-- A new target is registered, or the assignment raises. -/
theorem checked_register_new (h : c.Checked log) {self : Option ObjId}
    (hself : ∀ p ∈ self, p < c.next) {fields : String → Value}
    (hf : ∀ m ∈ declMethods, fields m = .nil) {key : String} (hd : key ≠ "defined") :
    let c₁ := c.alloc (c.instance self fields)
    (∃ e, targetNewindex key (.obj c.next) c₁ = (.raise e,c₁)) ∨
      targetNewindex key (.obj c.next) c₁ = (.ret (),c₁.register key c.next) ∧
        (c₁.register key c.next).Checked (log++[(key,c.next)]) := by
  intro c₁
  have h₁ := h.alloc hself hf
  have hdeps : c₁.deps c.next = ∅ := Core.deps_of_rawget (by simp [Core.rawget,c₁,Core.instance])
  rcases targetNewindex_cases key (.obj c.next) c₁ with
    ⟨hx,_⟩ | ⟨_,e,hx⟩ | ⟨_,hb,hk,⟨f,hv,_⟩ | ⟨o,ho,ht,hx⟩⟩
  · exact absurd hx hd
  · exact .inl ⟨e,hx⟩
  · cases hv
  · cases ho
    refine .inr ⟨hx,h₁.register hd hb hk ht ?_ hdeps⟩
    exact fun k hreg => lt_irrefl _ (h.represents.sound.registered hreg)

/-- What a declaration returns is a handle that the invariant covers. -/
def OpenAnswer (o : Outcome Value Value) (c : Core) : Prop :=
  ∀ t, o = .ret (.obj t) → OpenHandle c t

theorem openHandle_registered (h : c.Checked log) (hdef : ∀ e ∈ log, e.1 ≠ "__default")
    {k : String} {t : ObjId} (hk : c.registry k = .obj t) : OpenHandle c t := by
  refine ⟨h.represents.sound.registered hk,?_⟩
  by_cases hp : protectedMember k = .nil
  · obtain ⟨o,ho,ht⟩ := (h.represents.sound.bound k hp).resolve_left (by simp [hk])
    rw [hk] at ho
    cases ho
    obtain ⟨j,hj⟩ := h.represents.logged hk ht
    obtain ⟨hjp,hjd,hjb⟩ := h.represents.free _ hj
    refine .inr ⟨ht,j,⟨hjb,hjd,hdef _ hj,hjp⟩,(h.represents.named _ hj).2,fun hnil => ?_⟩
    rw [h.represents.bound _ hj] at hnil
    cases hnil
  · exact .inl (Core.protectedMember_table ((h.represents.sound.member k hp).symm.trans hk))

theorem openAnswer_targetIndex (h : c.Checked log) (hdef : ∀ e ∈ log, e.1 ≠ "__default")
    {key : String} (hk : key ≠ "__default") :
    OpenAnswer (targetIndex key c).1 (targetIndex key c).2 := by
  rcases targetIndex_cases key c with ⟨_,_,hx⟩ | ⟨_,_,_,hx⟩ | ⟨_,_,_,hx⟩ | ⟨hd,hb,hr,hx⟩ <;> rw [hx]
  · intro t ht
    rw [h.represents.proxy] at ht
    cases ht
  · intro t ht
    cases ht
  · exact fun t ht => openHandle_registered h hdef (Outcome.ret.inj ht)
  · rintro t ⟨⟩
    refine ⟨Nat.lt_succ_self _,.inr ⟨by simp [Core.instance],key,⟨hb,?_,hk,?_⟩,?_,fun _ => ?_⟩⟩
    · rintro rfl
      exact hd ⟨rfl,by simp [h.represents.proxy]⟩
    · by_contra hp
      rw [h.represents.sound.member key hp] at hr
      exact hp hr
    · simp [Core.rawget,Core.instance]
    · exact Core.deps_of_rawget (by simp [Core.rawget,Core.instance])

theorem checked_derive (h : c.Checked log) (hdef : ∀ e ∈ log, e.1 ≠ "__default") {p : ObjId}
    (hp : p < 3) {key : String} (hd : key ≠ "defined") (hk : key ≠ "__default") : wp (do
      let o ← newTarget (some p) noFields
      targetNewindex key (.obj o)
      targetIndex key) (fun o c' => CheckedMore log c' ∧ OpenAnswer o c') c := by
  have hself : ∀ q ∈ some p, q < c.next := by
    rintro q ⟨⟩
    exact hp.trans_le h.represents.sound.classes
  rw [wp_bind_newTarget]
  rcases checked_register_new h hself (fun _ _ => rfl) hd with ⟨e,hx⟩ | ⟨hx,h'⟩
  · exact wp_bind_raise hx ⟨(h.alloc hself fun _ _ => rfl).more,fun t ht => by cases ht⟩
  · have hdef' : ∀ e ∈ [(key,c.next)], e.1 ≠ "__default" := by simpa using hk
    apply wp_bind_ret hx
    refine ⟨⟨_,h'.quiet (quiet_targetIndex key _),le_rfl,hdef'⟩,openAnswer_targetIndex h' ?_ hk⟩
    exact fun e he => (List.mem_append.mp he).elim (hdef e) (hdef' e)

theorem checked_newNamed (E : Env) (h : c.Checked log) (hdef : ∀ e ∈ log, e.1 ≠ "__default")
    {fields : String → Value} (hf : ∀ m ∈ declMethods, fields m = .nil) {key : String}
    (hd : key ≠ "defined") (hk : key ≠ "__default") :
    wp (callNew E none (newNamed none key fields))
      (fun o c' => CheckedMore log c' ∧ OpenAnswer o c') c := by
  have hself : ∀ q ∈ (none : Option ObjId), q < c.next := by simp
  have hdef' : ∀ e ∈ [(key,c.next)], e.1 ≠ "__default" := by simpa using hk
  rcases checked_register_new h hself hf hd with ⟨e,hx⟩ | ⟨hx,h'⟩
  · have hrun : newNamed none key fields c = (.raise e,c.alloc (c.instance none fields)) :=
      run_bind_of_raise hx _
    exact wp_bind_raise hrun ⟨(h.alloc hself hf).more,fun t ht => by cases ht⟩
  · have hrun : newNamed none key fields c =
        (.ret c.next,(c.alloc (c.instance none fields)).register key c.next) :=
      run_bind_of_ret hx _
    apply wp_bind_ret hrun
    refine ⟨⟨_,h',le_rfl,hdef'⟩,?_⟩
    rintro t ⟨⟩
    exact openHandle_registered h' (fun e he => (List.mem_append.mp he).elim (hdef e) (hdef' e))
      (Core.registry_register_self _ key c.next)

theorem NodeHandle.steady {c' : Core} {t : ObjId} (h : NodeHandle c t) (hc : c.Sound)
    (hs : c.Steady c') : NodeHandle c' t := by
  rcases h with h | ⟨ht,m,hm,hname⟩
  · exact .inl h
  · have hlt := hc.allocated t ht
    exact .inr ⟨by rw [hs.isTarget t hlt,ht],m,hm,by rw [hs.raw t hlt _ (by decide),hname]⟩

/-- The loop of `depends_on`, however it ends. -/
theorem checked_dependsOnEntries (h : c.Checked log) {self : ObjId} {own : String}
    (hs : c.Settled self own) (ht : (c.heap self).isTarget) (hown : Nameable own) {list : List Value}
    (hlist : ∀ v ∈ list, v ≠ .str "__default" ∧ ∀ t, v = .obj t → NodeHandle c t) :
    wp (dependsOnEntries E self list) (fun _ c' => c'.Checked log) c := by
  have hc := h.represents.sound
  have hloop : wp (forEach (γ := Empty) (fun v (_ : Unit) => do
      dependsOnEntry E self v
      pure (.next ())) (list.takeWhile fun v => v ≠ .nil) ()) (fun _ c' => c'.Checked log) c := by
    apply wp_forEach fun xs _ c₁ => xs ⊆ list ∧ c.Steady c₁ ∧ c₁.Checked log
    · rintro v xs _ c₁ ⟨hsub,hst,h₁⟩
      obtain ⟨hdef,hnode⟩ := hlist v (hsub List.mem_cons_self)
      have hs₁ := hst.settled hc hs
      have ht₁ : (c₁.heap self).isTarget := by rwa [hst.isTarget self (hc.allocated self ht)]
      have hv₁ : wp (dependsOnEntry E self v) (fun _ c₂ => c₁.Steady c₂) c₁ :=
        steady_dependsOnEntry E h₁.represents.sound hs₁ v
      have hchk := checked_dependsOnEntry (E := E) h₁ hs₁ ht₁ hown hdef fun t ht =>
        (hnode t ht).steady hc hst
      apply wp_bind_of (wp_and hchk hv₁)
      · rintro _ c₂ ⟨⟨h₂,_⟩,hst₂⟩
        exact ⟨fun x hx => hsub (List.mem_cons_of_mem v hx),trans_of Core.Steady hst hst₂,h₂⟩
      · exact fun _ _ h => h.1.1
      · exact fun _ h => h.1.1
    · exact fun _ _ h => h.2.2
    · exact ⟨(List.takeWhile_prefix _).subset,refl_of Core.Steady c,h⟩
  apply wp_bind_of hloop
  · exact fun _ _ h => h
  · exact fun _ _ h => h
  · exact fun _ h => h

theorem checked_dependsOn (h : c.Checked log) {self : ObjId} {own : String}
    (ht : (c.heap self).isTarget) (hown : Nameable own) (hn : c.rawget self "name" = .str own)
    (hdeps : c.registry own = .nil → c.deps self = ∅) {list : List Value}
    (hlist : ∀ v ∈ list, v ≠ .str "__default" ∧ ∀ t, v = .obj t → NodeHandle c t) :
    wp (dependsOn E self list) (fun _ c' => CheckedMore log c') c := by
  rcases registerSelf_named (E := E) h.represents hn hown.2.1 ht with
    ⟨hs,hr⟩ | ⟨e,hr⟩ | ⟨hk,hr,hrep,hs⟩
  · apply wp_bind_ret hr
    exact wp_mono (checked_dependsOnEntries h hs ht hown hlist) fun _ _ h => h.more
  · exact wp_bind_raise hr h.more
  · have h₁ := h.register hown.2.1 hown.1 hk ht (h.represents.unregistered hn hk ht) (hdeps hk)
    have hlist₁ : ∀ v ∈ list, v ≠ .str "__default" ∧ ∀ t, v = .obj t →
        NodeHandle (c.register own self) t := by
      intro v hv
      obtain ⟨hd,hnode⟩ := hlist v hv
      refine ⟨hd,fun t hvt => (hnode t hvt).imp_right ?_⟩
      rintro ⟨htt,m,hm,hname⟩
      exact ⟨by rwa [Core.isTarget_register],m,hm,by rw [rawget_register_own hn,hname]⟩
    apply wp_bind_ret hr
    apply wp_mono (checked_dependsOnEntries h₁ hs (by rwa [Core.isTarget_register]) hown hlist₁)
    intro _ c' hc'
    refine ⟨_,hc',le_rfl,?_⟩
    simpa using hown.2.2.1

/-- One declaration. -/
theorem checked_declare (h : c.Checked log) (hdef : ∀ e ∈ log, e.1 ≠ "__default") {d : Decl}
    (hd : KeepsAcyclic d) (huses : ∀ t, .obj t ∈ d.uses → OpenHandle c t) :
    wp (declare E d) (fun o c' => CheckedMore log c' ∧ OpenAnswer o c') c := by
  have hnone : ∀ {o : Outcome Value Value} {c' : Core}, (∀ t, o ≠ .ret (.obj t)) → OpenAnswer o c' :=
    fun ho t ht => absurd ht (ho t)
  cases d with
  | index key =>
    exact ⟨(h.quiet (quiet_targetIndex key c)).more,openAnswer_targetIndex h hdef hd⟩
  | assign key v =>
    rcases targetNewindex_cases key v c with ⟨hx,_⟩ | ⟨_,e,hx⟩ | ⟨_,hb,hk,⟨f,rfl,hx⟩ | ⟨o,ho,_⟩⟩
    · exact absurd hx hd.1
    · exact wp_bind_raise hx ⟨h.more,hnone (by simp)⟩
    · have hf : ∀ m ∈ declMethods, Function.update noFields "command" (.fn f) m = .nil := by
        intro m hm
        rw [Function.update_of_ne]
        · rfl
        · rintro rfl
          revert hm
          decide
      have hself : ∀ p ∈ (none : Option ObjId), p < c.next := by simp
      have h₁ := (h.alloc hself hf).register hd.1 hb hk
        (by simp [Core.instance]) (fun k hreg => lt_irrefl _ (h.represents.sound.registered hreg))
        (Core.deps_of_rawget (by simp [Core.rawget,Core.instance]))
      apply wp_bind_ret hx
      exact ⟨⟨_,h₁,le_rfl,by simpa using hd.2.1⟩,hnone (by simp)⟩
    · exact absurd ho (hd.2.2 o)
  | new self fields => exact absurd hd id
  | newNamed self key fields =>
    obtain ⟨rfl,hkey,hk,hf⟩ := hd
    exact checked_newNamed E h hdef hf hkey hk
  | phonyTarget name =>
    have hk : targetDefined E .nil c = (.ret false,c) := by simp [targetDefined,h.represents.proxy]
    exact wp_bind_ret hk (checked_derive h hdef (by decide) hd.1 hd.2)
  | dirTarget dir =>
    apply wp_bind_ret (targetDefined_of_proxy E h.represents.proxy dir)
    by_cases hr : c.registry dir = .nil
    · rw [if_neg (by simp [hr])]
      exact checked_derive h hdef (by decide) hd.1 hd.2
    · rw [if_pos (by simp [hr])]
      apply wp_existingDir dir
      · intro c' hq
        have h' := h.quiet hq
        exact ⟨(h'.quiet (quiet_targetIndex dir c')).more,openAnswer_targetIndex h' hdef hd.2⟩
      · exact fun o c' hq ho => ⟨(h.quiet hq).more,hnone fun t => ho _⟩
  | dependsOn v list =>
    refine ⟨?_,?_⟩
    · cases v with
      | obj o =>
        change CheckedMore log ((callMethod E .dependsOn "depends_on" o (dependsOn E o list)
          (fun _ => ()) >>= fun _ => pure Value.nil : Lua Value) c).2
        rw [snd_run_bind_pure]
        refine callMethod_state E h.more fun hm => ?_
        obtain ⟨_,rfl | ⟨ht,own,hown,hname,hopen⟩⟩ := huses o (by simp [Decl.uses])
        · rw [h.represents.sound.attr_mt] at hm
          cases hm
        · apply checked_dependsOn h ht hown hname hopen
          refine fun v hv => ⟨fun hvd => hd (hvd ▸ hv),?_⟩
          rintro t rfl
          obtain ⟨_,ht⟩ := huses t (by simp [Decl.uses,hv])
          refine ht.imp_right ?_
          rintro ⟨htt,m,hm,hn,_⟩
          exact ⟨htt,m,hm,hn⟩
      | _ => exact h.more
    · cases v with
      | obj o =>
        intro t ht
        obtain ⟨_,_,hnil⟩ := ret_of_bind_pure ht
        cases hnil
      | _ => exact hnone (by simp [declare,asTable,luaError])

end Checked
end Presto

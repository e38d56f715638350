import Presto.Registry.Acyclic

/-! The dependency graph over whole runs: it stays acyclic, the check decides reachability, and
`depends_on` adds exactly the edges it is asked for. -/
namespace Presto
open Program

section
variable {E : Env} {c : Core} {log : List (String × ObjId)}

/-- What `depends_on` does to the registry, however it ends. -/
theorem dependsOn_registry (h : c.Represents log) {self : ObjId} {own : String}
    (hn : c.rawget self "name" = .str own) (hown : own ≠ "defined") (ht : (c.heap self).isTarget)
    (list : List Value) :
    (dependsOn E self list c).2 = c ∨
      (c.registry own ≠ .nil ∧ (dependsOn E self list c).2.registry = c.registry) ∨
      c.registry own = .nil ∧
        (dependsOn E self list c).2.registry = (c.register own self).registry := by
  unfold dependsOn
  rcases registerSelf_named (E := E) h hn hown ht with ⟨hs,hr⟩ | ⟨e,hr⟩ | ⟨hk,hr,h₁,hs₁⟩
  · rw [run_bind_of_ret hr,(steady_dependsOnEntries E h.sound hs list).registry]
    exact .inr (.inl ⟨hs.known,rfl⟩)
  · rw [run_bind_of_raise hr]
    exact .inl rfl
  · rw [run_bind_of_ret hr,(steady_dependsOnEntries E h₁.sound hs₁ list).registry]
    exact .inr (.inr ⟨hk,rfl⟩)

/-- A declaration keeps the handles that exist. -/
theorem OpenHandle.declare (h : c.Checked log) {d : Decl} (hd : KeepsAcyclic d)
    (huses : ∀ t, .obj t ∈ d.uses → OpenHandle c t) {t : ObjId} (ht : OpenHandle c t) :
    OpenHandle (declare E d c).2 t := by
  have hnamed : ∀ o, .obj o ∈ d.uses → o < c.next ∧ (o = mtTable ∨
      (c.heap o).isTarget ∧ ∃ k, k ≠ "defined" ∧ c.rawget o "name" = .str k) := fun o ho =>
    (huses o ho).imp_right fun hx => hx.imp_right fun ⟨hto,m,hm,hname,_⟩ => ⟨hto,m,hm.2.1,hname⟩
  have hnames := (names_declare (E := E) h.represents hd.plain hnamed).1
  have hext := (moves_declare E d c h.represents.sound).2
  have hframe := depsFrame_declare E hd.plain c
  obtain ⟨hlt,hmt | ⟨htt,m,hm,hname,hopen⟩⟩ := ht
  · exact ⟨hlt.trans_le hext.next,.inl hmt⟩
  · refine ⟨hlt.trans_le hext.next,.inr ⟨by rwa [hext.isTarget t hlt],m,hm,hnames.2 t hlt m hname,?_⟩⟩
    intro hnil
    have hold : c.registry m = .nil := by
      by_contra hne
      rw [hext.registry m hne] at hnil
      exact hne hnil
    by_cases hch : d.changes = some t
    · -- the handle that `depends_on` was called on: its name is in use now, or nothing changed
      obtain ⟨list,rfl⟩ : ∃ list, d = .dependsOn (.obj t) list := by
        cases d with
        | dependsOn v list =>
          cases v with
          | obj o => cases hch; exact ⟨list,rfl⟩
          | _ => cases hch
        | _ => cases hch
      have hmethod := h.represents.sound.attr_method htt (h.methods "depends_on" (by decide)) (by decide)
      rw [declare_dependsOn hmethod,snd_run_bind_pure] at hnil ⊢
      rcases dependsOn_registry (E := E) h.represents hname hm.2.1 htt list with
        hsame | ⟨hknown,_⟩ | ⟨_,hreg⟩
      · rw [hsame]
        exact hopen hold
      · exact absurd hold hknown
      · rw [hreg,Core.registry_register_self] at hnil
        cases hnil
    · rw [hframe.2 t hlt hch]
      exact hopen hold

/-- The check decides reachability when the stack has room for all names. -/
def CheckDecides (E : Env) (c : Core) (size : ℕ) : Prop :=
  ∀ k o t d room, k ≠ "__default" → c.registry k = .obj o → (c.heap o).isTarget → size < room →
    (c.Reaches k t ∧ (checkForCycle E room o t d c).1 = .raise (cycleError t d)) ∨
      ¬c.Reaches k t ∧ (checkForCycle E room o t d c).1 = .ret ()

/-- What a call `h:depends_on(list)` does on the handle `h` with the name `own`. An entry is
processed in the state that the entries before it have left behind. -/
structure DependsOnExact (E : Env) (c : Core) (size : ℕ) (h : ObjId) (own : String)
    (list : List Value) : Prop where
  entry : ∀ before v rest c₁ c₂, size < E.stack →
    list.takeWhile (fun v => v ≠ .nil) = before++v::rest → registerSelf E h c = (.ret (),c₁) →
    dependsOnEntries E h before c₁ = (.ret (),c₂) →
    ((∃ t d, (dependsOnEntry E h v c₂).1 = .raise (cycleError t d)) ↔
      ∃ m, entryName c₂ v = some m ∧ c₂.Reaches m own)
  added : ∀ c', dependsOn E h list c = (.ret (),c') →
    ∃ ms : List String, (list.takeWhile fun v => v ≠ .nil).map (entryName c) = ms.map some ∧
      c'.deps h = ms.toFinset ∪ c.deps h ∧
      ∀ n m, c'.Edge n m ↔ c.Edge n m ∨ n ≠ "__default" ∧ c'.registry n = .obj h ∧ m ∈ ms

theorem Core.Checked.checkDecides (h : c.Checked log) : CheckDecides E c log.length := by
  intro k o t d room hk ho htarget hroom
  have hp : protectedMember k = .nil := by
    by_contra hp
    rw [Core.protectedMember_table ((h.represents.sound.member k hp).symm.trans ho),
      h.represents.sound.mt] at htarget
    cases htarget
  obtain ⟨e,he,rfl⟩ := List.mem_map.mp (h.represents.mem_of_registry hk hp (by simp [ho]))
  obtain ⟨_,hd,hb⟩ := h.represents.free e he
  have hs : c.StandsFor e.1 o :=
    ⟨htarget,h.represents.registered_name hk ho htarget,.inl ho⟩
  have hsize : height c.Edge (log.map Prod.fst).toFinset e.1 ≤ log.length :=
    (height_le e.1).trans ((List.toFinset_card_le _).trans (List.length_map _).le)
  rcases (checkForCycle_ends (E := E) h room hs ⟨hb,hd,hk,hp⟩ t d).2 with
    ⟨hx,hr⟩ | ⟨hx,hr⟩ | ⟨hx,_⟩
  · exact .inl ⟨hr,hx⟩
  · exact .inr ⟨hr,hx⟩
  · exact absurd hroom (not_lt.mpr (hx.trans hsize))

/-- An entry of a settled target, when the stack has room. -/
theorem dependsOnEntry_exact (h : c.Checked log) {self : ObjId} {own : String}
    (hs : c.Settled self own) (ht : (c.heap self).isTarget) (hown : Nameable own) {v : Value}
    (hdef : v ≠ .str "__default") (hv : ∀ t, v = .obj t → NodeHandle c t)
    (hroom : log.length < E.stack) :
    (∃ t d, (dependsOnEntry E self v c).1 = .raise (cycleError t d)) ↔
      ∃ m, entryName c v = some m ∧ c.Reaches m own := by
  obtain ⟨_,⟨m,hm,hends⟩ | ⟨⟨e,ho,he⟩,hnot⟩⟩ := checked_dependsOnEntry (E := E) h hs ht hown hdef hv
  · rcases hends with ⟨ho,hr⟩ | ⟨ho,hr⟩ | ⟨hx,_⟩
    · exact ⟨fun _ => ⟨m,hm,hr⟩,fun _ => ⟨own,m,ho⟩⟩
    · constructor
      · rintro ⟨t,d,hx⟩
        rw [ho] at hx
        cases hx
      · rintro ⟨m',hm',hr'⟩
        rw [hm] at hm'
        cases hm'
        exact absurd hr' hr
    · exact absurd hroom (not_lt.mpr hx)
  · constructor
    · rintro ⟨t,d,hx⟩
      rw [ho] at hx
      cases hx
      exact absurd rfl (he t d)
    · rintro ⟨m,hm,hr⟩
      exact absurd hr (hnot m hm)

/-- After `depends_on` has seen to it that its target is registered under some handle. -/
theorem registerSelf_checked (h : c.Checked log) {self : ObjId} {own : String}
    (ht : (c.heap self).isTarget) (hown : Nameable own) (hn : c.rawget self "name" = .str own)
    (hdeps : c.registry own = .nil → c.deps self = ∅) {c₁ : Core}
    (hr : registerSelf E self c = (.ret (),c₁)) :
    (∃ more, c₁.Checked (log++more) ∧ more.length ≤ 1) ∧ c₁.Settled self own ∧
      (∀ p, (c₁.heap p).isTarget = (c.heap p).isTarget) ∧ ∀ p j, c₁.rawget p j = c.rawget p j := by
  rcases registerSelf_named (E := E) h.represents hn hown.2.1 ht with
    ⟨hs,hx⟩ | ⟨e,hx⟩ | ⟨hk,hx,_,hs⟩ <;> rw [hr] at hx
  · obtain rfl := (Prod.mk.inj hx).2
    exact ⟨⟨[],by rwa [List.append_nil],Nat.zero_le _⟩,hs,fun _ => rfl,fun _ _ => rfl⟩
  · cases (Prod.mk.inj hx).1
  · obtain rfl := (Prod.mk.inj hx).2
    have h₁ := h.register hown.2.1 hown.1 hk ht (h.represents.unregistered hn hk ht) (hdeps hk)
    exact ⟨⟨_,h₁,le_rfl⟩,hs,fun p => Core.isTarget_register ..,rawget_register_own hn⟩

theorem entry_exact (h : c.Checked log) {self : ObjId} {own : String} (ht : (c.heap self).isTarget)
    (hown : Nameable own) (hn : c.rawget self "name" = .str own)
    (hdeps : c.registry own = .nil → c.deps self = ∅) {list : List Value}
    (hlist : ∀ v ∈ list, v ≠ .str "__default" ∧ ∀ t, v = .obj t → NodeHandle c t)
    (hroom : log.length+1 < E.stack) {before : List Value} {v : Value} {rest : List Value}
    (hsplit : list.takeWhile (fun v => v ≠ .nil) = before++v::rest) {c₁ c₂ : Core}
    (hr₁ : registerSelf E self c = (.ret (),c₁))
    (hr₂ : dependsOnEntries E self before c₁ = (.ret (),c₂)) :
    (∃ t d, (dependsOnEntry E self v c₂).1 = .raise (cycleError t d)) ↔
      ∃ m, entryName c₂ v = some m ∧ c₂.Reaches m own := by
  obtain ⟨⟨more,h₁,hmore⟩,hs₁,htarget,hraw⟩ := registerSelf_checked h ht hown hn hdeps hr₁
  have hmem : ∀ x ∈ before++v::rest, x ∈ list := fun x hx =>
    (List.takeWhile_prefix _).subset (hsplit ▸ hx)
  have hlist₁ : ∀ x ∈ before++v::rest, x ≠ .str "__default" ∧
      ∀ t, x = .obj t → NodeHandle c₁ t := by
    intro x hx
    obtain ⟨hd,hnode⟩ := hlist x (hmem x hx)
    refine ⟨hd,fun t hxt => (hnode t hxt).imp_right ?_⟩
    rintro ⟨htt,m,hm,hname⟩
    exact ⟨by rwa [htarget],m,hm,by rw [hraw,hname]⟩
  have ht₁ : (c₁.heap self).isTarget := by rwa [htarget]
  have hc₁ := h₁.represents.sound
  have h₂ : c₂.Checked (log++more) := by
    have hx := checked_dependsOnEntries (E := E) h₁ hs₁ ht₁ hown fun x hx =>
      hlist₁ x (List.mem_append_left _ hx)
    rw [wp,hr₂] at hx
    exact hx
  have hst : c₁.Steady c₂ := by
    have hx := steady_dependsOnEntries E hc₁ hs₁ before
    rwa [hr₂] at hx
  obtain ⟨hd,hnode⟩ := hlist₁ v (List.mem_append_right _ List.mem_cons_self)
  refine dependsOnEntry_exact h₂ (hst.settled hc₁ hs₁) ?_ hown hd
    (fun t hvt => (hnode t hvt).steady hc₁ hst) ?_
  · rwa [hst.isTarget self (hc₁.allocated self ht₁)]
  · rw [List.length_append]
    omega

/-- The edges after a call that returns. -/
theorem edges_dependsOn (h : c.Checked log) {self : ObjId} {own : String}
    (ht : (c.heap self).isTarget) (hown : Nameable own) (hn : c.rawget self "name" = .str own)
    (hdeps : c.registry own = .nil → c.deps self = ∅) {list : List Value} {c' : Core}
    (hr : dependsOn E self list c = (.ret (),c')) {ms : Finset String}
    (hadd : AddsDep c c' self ms) (n m : String) :
    c'.Edge n m ↔ c.Edge n m ∨ n ≠ "__default" ∧ c'.registry n = .obj self ∧ m ∈ ms := by
  have hc := h.represents.sound
  have hreg := dependsOn_registry (E := E) h.represents hn hown.2.1 ht list
  have hext := (moves_dependsOn E self list c hc).2
  rw [hr] at hreg hext
  constructor
  · rintro ⟨hd,o,ho,hm⟩
    by_cases hs : o = self
    · subst hs
      rw [hadd.own] at hm
      rcases Finset.mem_union.mp hm with hm | hm
      · exact .inr ⟨hd,ho,hm⟩
      · refine .inl ⟨hd,o,?_,hm⟩
        rcases hreg with rfl | ⟨_,hsame⟩ | ⟨hk,_⟩
        · exact ho
        · rwa [hsame] at ho
        · rw [hdeps hk] at hm
          cases hm
    · have hold : c.registry n = .obj o := by
        rcases hreg with rfl | ⟨_,hsame⟩ | ⟨_,hnew⟩
        · exact ho
        · rwa [hsame] at ho
        · rw [hnew] at ho
          by_cases he : n = own
          · subst he
            rw [Core.registry_register_self] at ho
            exact absurd (Value.obj.inj ho).symm hs
          · rwa [c.registry_register_of_ne self he hd] at ho
      exact .inl ⟨hd,o,hold,hadd.others o (hc.registered hold) hs ▸ hm⟩
  · rintro (⟨hd,o,ho,hm⟩ | ⟨hd,ho,hm⟩)
    · refine ⟨hd,o,by rw [hext.registry n (by simp [ho]),ho],?_⟩
      by_cases hs : o = self
      · subst hs
        rw [hadd.own]
        exact Finset.mem_union_right _ hm
      · rwa [hadd.others o (hc.registered ho) hs]
    · refine ⟨hd,self,ho,?_⟩
      rw [hadd.own]
      exact Finset.mem_union_left _ hm

/-- A call of `depends_on` on a handle of a run. -/
theorem dependsOnExact (h : c.Checked log) {self : ObjId} {own : String}
    (hself : OpenHandle c self) (hown : c.attr self "name" = .str own) {list : List Value}
    (hdef : .str "__default" ∉ list) (hlist : ∀ t, .obj t ∈ list → OpenHandle c t) {size : ℕ}
    (hsize : log.length < size) : DependsOnExact E c size self own list := by
  obtain ⟨_,rfl | ⟨ht,m,hm,hname,hdeps⟩⟩ := hself
  · rw [h.represents.sound.attr_mt] at hown
    cases hown
  · rw [Core.attr_eq_rawget (by simp [hname]),hname] at hown
    cases hown
    have hnode : ∀ v ∈ list, v ≠ .str "__default" ∧ ∀ t, v = .obj t → NodeHandle c t := by
      refine fun v hv => ⟨fun hvd => hdef (hvd ▸ hv),?_⟩
      rintro t rfl
      exact (hlist t hv).2.imp_right fun ⟨htt,m,hm,hn,_⟩ => ⟨htt,m,hm,hn⟩
    constructor
    · intro before v rest c₁ c₂ hroom hsplit hr₁ hr₂
      exact entry_exact h ht hm hname hdeps hnode (by omega) hsplit hr₁ hr₂
    · intro c' hr
      have hlt : ∀ v ∈ list, v ≠ .str "__default" ∧ ∀ o, v = .obj o → o < c.next := fun v hv =>
        ⟨(hnode v hv).1,fun o ho => (hlist o (ho ▸ hv)).1⟩
      have hret := dependsOn_ret (E := E) h.represents hname hm.2.1 ht hlt
      rw [wp,hr] at hret
      obtain ⟨_,ms,hms,hadd⟩ := hret rfl
      refine ⟨ms,hms,hadd.own,fun n m => ?_⟩
      rw [edges_dependsOn h ht hm hname hdeps hr hadd,List.mem_toFinset]

end

/-- What a run keeps for the next declaration. -/
structure Session.Open (s : Session) (log : List (String × ObjId)) : Prop where
  checked : s.core.Checked log
  names : ∀ e ∈ log, e.1 ≠ "__default"
  handles : ∀ o, s.Handle o → OpenHandle s.core o
  short : log.length ≤ s.history.length

section
variable {E : Env} {s : Session} {log : List (String × ObjId)}

theorem open_start (files : FileSystem) : (⟨Core.init files,[]⟩ : Session).Open [] where
  checked := by
    have hempty : ∀ n m, ¬(Core.init files).Edge n m := by
      rintro n m ⟨_,o,ho,hm⟩
      obtain rfl := Core.protectedMember_table ho
      cases hm
    refine ⟨Core.represents_init files,(tidy_start files).methods,?_,fun n m he => absurd he (hempty n m)⟩
    intro v hv
    obtain ⟨u,he,_⟩ := Relation.TransGen.head'_iff.mp hv
    exact hempty v u he
  names := by simp
  handles := by rintro o ⟨_,h⟩; cases h
  short := le_rfl

/-- One declaration. -/
theorem Session.Open.after (h : s.Open log) {d : Decl} (hk : s.Knows d) (hd : KeepsAcyclic d) :
    ∃ more, (s.after E d).Open (log++more) := by
  have huses : ∀ t, .obj t ∈ d.uses → OpenHandle s.core t := fun t ht => h.handles t (hk t ht)
  obtain ⟨⟨more,hmore,hshort,hnames⟩,hanswer⟩ := checked_declare (E := E) h.checked h.names hd huses
  refine ⟨more,hmore,?_,?_,?_⟩
  · exact fun e he => (List.mem_append.mp he).elim (h.names e) (hnames e)
  · rintro o ⟨d',hin⟩
    rcases List.mem_cons.mp hin with heq | hin
    · exact hanswer o (Prod.mk.inj heq).2.symm
    · exact (h.handles o ⟨d',hin⟩).declare h.checked hd huses
  · have hlen := h.short
    simp only [List.length_append,Session.after,List.length_cons]
    omega

theorem Session.Run.open (h : s.Run E fun _ d => KeepsAcyclic d) : ∃ log, s.Open log := by
  induction h with
  | start files => exact ⟨[],open_start files⟩
  | step _ hk hd ih =>
    obtain ⟨log,hlog⟩ := ih
    obtain ⟨more,hmore⟩ := hlog.after (E := E) hk hd
    exact ⟨_,hmore⟩

/-- In a run that satisfies `KeepsAcyclic` no target depends on itself, the check of a target
says whether it reaches a name, and calls of `depends_on` are exact. -/
theorem dependency_graph_exact (h : s.Run E fun _ d => KeepsAcyclic d) :
    Acyclic s.core.Edge ∧ CheckDecides E s.core s.history.length ∧
      ∀ o own list, s.Knows (.dependsOn (.obj o) list) → .str "__default" ∉ list →
        s.core.attr o "name" = .str own →
        DependsOnExact E s.core (s.history.length+1) o own list := by
  obtain ⟨log,hlog⟩ := h.open
  refine ⟨hlog.checked.acyclic,?_,?_⟩
  · exact fun k o t d room hk ho ht hroom =>
      hlog.checked.checkDecides k o t d room hk ho ht (hlog.short.trans_lt hroom)
  · intro o own list hk hdef hown
    exact dependsOnExact hlog.checked (hlog.handles o (hk o (by simp [Decl.uses]))) hown hdef
      (fun t ht => hlog.handles t (hk t (by simp [Decl.uses,ht]))) (Nat.lt_succ_of_le hlog.short)

end

/-- A makefile where `x` depends on `a`. -/
theorem dependency_graph_exact_x :
    Acyclic ((Session.fresh.after Env.plain (.index "x")).after Env.plain
      (.dependsOn (.obj 3) [.str "a"])).core.Edge := by
  have hindex : (Session.fresh.after Env.plain (.index "x")).Run Env.plain fun _ d => KeepsAcyclic d :=
    (Session.Run.start _).step (by simp [Session.Knows,Decl.uses]) (by decide : ("x" : String) ≠ _)
  refine (dependency_graph_exact (hindex.step ?_ (by simp [KeepsAcyclic]))).1
  intro o ho
  obtain rfl : o = 3 := by simpa [Decl.uses] using ho
  exact ⟨.index "x",List.mem_cons.mpr (.inl rfl)⟩

/-- Functions of makefiles, of which the first answers `true`. -/
def Env.truthful : Env :=
  { Env.plain with call := fun f _ _ _ => .ok (.bool (f = .user 0)) }

/-- With a `defined` that answers `true`, `x` becomes a dependency of itself unnoticed; with one
that answers `false`, it is then registered with that edge. -/
def Session.selfLoop : Session :=
  let s := (Session.fresh.after Env.truthful (.assign "defined" (.fn (.user 0)))).after Env.truthful
    (.index "x")
  ((s.after Env.truthful (.dependsOn (.obj 3) [.obj 3])).after Env.truthful
    (.assign "defined" (.fn (.user 1)))).after Env.truthful (.dependsOn (.obj 3) [])

theorem cycle_unnoticed : Session.selfLoop.Run Env.truthful (fun _ _ => True) ∧
    (.dependsOn (.obj 3) [.obj 3],.ret .nil) ∈ Session.selfLoop.history ∧
    Session.selfLoop.core.rawget 3 "name" = .str "x" ∧ Session.selfLoop.core.Edge "x" "x" := by
  have hindex : ((Session.fresh.after Env.truthful (.assign "defined" (.fn (.user 0)))).after
      Env.truthful (.index "x")).Run Env.truthful fun _ _ => True :=
    ((Session.Run.start _).step (by simp [Session.Knows,Decl.uses]) trivial).step
      (by simp [Session.Knows,Decl.uses]) trivial
  refine ⟨((hindex.step ?_ trivial).step (by simp [Session.Knows,Decl.uses]) trivial).step ?_ trivial,
    ?_,by decide,by decide,3,by decide,by decide⟩
  · intro o ho
    obtain rfl : o = 3 := by simpa [Decl.uses] using ho
    exact ⟨.index "x",List.mem_cons.mpr (.inl rfl)⟩
  · intro o ho
    obtain rfl : o = 3 := by simpa [Decl.uses] using ho
    exact ⟨.index "x",List.mem_cons_of_mem _ (List.mem_cons_of_mem _ (List.mem_cons.mpr (.inl rfl)))⟩
  · exact List.mem_cons_of_mem _ (List.mem_cons_of_mem _ (List.mem_cons.mpr (.inl rfl)))

end Presto

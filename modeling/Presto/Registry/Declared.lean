import Presto.Registry.Handles

/-! No declared dependency is lost, as long as `depends_on` is only called on the handle that
is registered under its name, or on one whose name is not in use. -/
namespace Presto
open Program

/-- Lookups, assignments of functions and calls of `depends_on`. Such a call must not be made
through a handle whose name belongs to another target, and must not name `__default`. -/
def KeepsDeps (c : Core) : Decl → Prop
  | .index _ => True
  | .assign key v => key ≠ "defined" ∧ ∃ f, v = .fn f
  | .dependsOn h list => .str "__default" ∉ list ∧ ∀ o own, h = .obj o →
      c.attr o "name" = .str own → c.registry own = .nil ∨ c.registry own = .obj o
  | _ => False

theorem KeepsDeps.plain {c : Core} {d : Decl} (h : KeepsDeps c d) : Plain d := by
  cases d with
  | assign key v =>
    obtain ⟨hk,f,rfl⟩ := h
    exact ⟨hk,fun o ho => by cases ho⟩
  | index key => trivial
  | dependsOn v list => trivial
  | _ => exact absurd h id

/-- The dependencies of `o` contain the names of all entries of a list. -/
def Covers (c : Core) (o : ObjId) (list : List Value) : Prop :=
  ∀ v ∈ list.takeWhile (fun v => v ≠ .nil), ∃ m, entryName c v = some m ∧ m ∈ c.deps o

/-- What is true of the lookups and of the calls of `depends_on` made so far. -/
structure Session.Recorded (s : Session) : Prop where
  obtained : ∀ n o, (.index n,.ret (.obj o)) ∈ s.history →
    o = mtTable ∨ s.core.registry n = .obj o ∨ s.core.rawget o "name" = .str n
  given : ∀ o list v, (.dependsOn (.obj o) list,.ret v) ∈ s.history →
    (∀ p, .obj p ∈ list → s.Handle p) ∧ (s.core.heap o).isTarget ∧
      (∃ own, s.core.rawget o "name" = .str own ∧ s.core.registry own = .obj o) ∧
      Covers s.core o list

section
variable {E : Env} {c c' : Core} {s : Session} {log : List (String × ObjId)}

theorem entryName_keep (hc : c.Sound) (hk : KeepsNames c.next c c') {v : Value} {m : String}
    (hv : ∀ o, v = .obj o → NamedHandle c o) (hm : entryName c v = some m) :
    entryName c' v = some m := by
  cases v with
  | obj o =>
    obtain ⟨hlt,rfl | ⟨_,k,_,hname⟩⟩ := hv o rfl
    · simp [entryName,hc.attr_mt] at hm
    · have hname' := hk.2 o hlt k hname
      rw [entryName,Core.attr_eq_rawget (by simp [hname]),hname] at hm
      rw [entryName,Core.attr_eq_rawget (by simp [hname']),hname']
      exact hm
  | str t => exact hm
  | _ => cases hm

theorem Core.Extends.deps_subset (h : c.Extends c') (hc : c.Sound) {o : ObjId}
    (ht : (c.heap o).isTarget) : c.deps o ⊆ c'.deps o := by
  obtain ⟨t,hd⟩ := hc.deps o ht
  obtain ⟨u,hu,hsub⟩ := h.deps o (hc.allocated o ht) t hd
  rw [Core.deps_of_rawget hd,Core.deps_of_rawget hu]
  exact hsub

theorem Covers.keep {o : ObjId} {list : List Value} (h : Covers c o list) (hc : c.Sound)
    (he : c.Extends c') (hk : KeepsNames c.next c c') (ht : (c.heap o).isTarget)
    (hlist : ∀ p, .obj p ∈ list → NamedHandle c p) : Covers c' o list := by
  intro v hv
  obtain ⟨m,hm,hin⟩ := h v hv
  refine ⟨m,entryName_keep hc hk ?_ hm,he.deps_subset hc ht hin⟩
  rintro p rfl
  exact hlist p (List.takeWhile_prefix _ |>.subset hv)

theorem Core.Sound.attr_method (h : c.Sound) {o : ObjId} (ht : (c.heap o).isTarget) {m : String}
    (hm : c.Lacks m) (hp : protectedMember m ≠ .nil) : c.attr o m = protectedMember m := by
  have hh : c.holder o m = none := by
    rw [Core.holder,List.find?_eq_none]
    intro p _
    simp [hm p]
  simp [Core.attr,hh,ht,h.member m hp]

/-- A handle that a lookup has just returned. -/
theorem obtained_targetIndex (h : c.Represents log) {key : String} {o : ObjId}
    (hr : targetIndex key c = (.ret (.obj o),c')) :
    o = mtTable ∨ c'.registry key = .obj o ∨ c'.rawget o "name" = .str key := by
  rcases targetIndex_cases key c with ⟨_,_,hx⟩ | ⟨_,_,_,hx⟩ | ⟨_,_,_,hx⟩ | ⟨_,_,_,hx⟩ <;> rw [hr] at hx
  · rw [h.proxy] at hx
    cases hx
  · cases hx
  · obtain ⟨hv,rfl⟩ := Prod.mk.inj hx
    exact .inr (.inl (Outcome.ret.inj hv).symm)
  · obtain ⟨hv,rfl⟩ := Prod.mk.inj hx
    cases hv
    exact .inr (.inr (by simp [Core.rawget,Core.instance]))

theorem declare_dependsOn {o : ObjId} (h : c.attr o "depends_on" = .fn (.method .dependsOn))
    (list : List Value) : declare E (.dependsOn (.obj o) list) c =
      (dependsOn E o list >>= fun _ => pure .nil) c := by
  change Prog.bind (callMethod E .dependsOn "depends_on" o (dependsOn E o list) fun _ => ()) _ c =
    Prog.bind _ _ c
  rw [Prog.bind,callMethod_of_method E h]
  rfl

/-- A call of `depends_on` that has just returned. -/
theorem given_dependsOn (h : s.Tidy log) {o : ObjId} {list : List Value}
    (hk : s.Knows (.dependsOn (.obj o) list)) (hd : KeepsDeps s.core (.dependsOn (.obj o) list))
    (hnames : KeepsNames s.core.next s.core (s.after E (.dependsOn (.obj o) list)).core)
    {v : Value} (hr : (declare E (.dependsOn (.obj o) list) s.core).1 = .ret v) :
    (s.core.heap o).isTarget ∧ (∃ own, s.core.rawget o "name" = .str own ∧
      (s.after E (.dependsOn (.obj o) list)).core.registry own = .obj o) ∧
      Covers (s.after E (.dependsOn (.obj o) list)).core o list := by
  have hc := h.represents.sound
  obtain ⟨hlt,rfl | ⟨ht,own,hown,hname⟩⟩ := h.handles o (hk o (by simp [Decl.uses]))
  · have hfail : (declare E (.dependsOn (.obj mtTable) list) s.core).1 =
        .raise (.str "attempt to call a nil value") := by
      have hcall : callMethod E .dependsOn "depends_on" mtTable (dependsOn E mtTable list)
          (fun _ => ()) s.core = (.raise (.str "attempt to call a nil value"),s.core) := by
        simp [callMethod,hc.attr_mt,luaError,Value.typeName]
      change (Prog.bind (callMethod E .dependsOn "depends_on" mtTable (dependsOn E mtTable list)
        fun _ => ()) _ s.core).1 = _
      rw [Prog.bind,hcall]
    rw [hfail] at hr
    cases hr
  · have hattr : s.core.attr o "name" = .str own := by
      rw [Core.attr_eq_rawget (by simp [hname]),hname]
    have hmethod : s.core.attr o "depends_on" = .fn (.method .dependsOn) :=
      hc.attr_method ht (h.methods _ (by decide)) (by decide)
    have hlist : ∀ v ∈ list, v ≠ .str "__default" ∧ ∀ p, v = .obj p → p < s.core.next := by
      intro v hv
      refine ⟨?_,?_⟩
      · rintro rfl
        exact hd.1 hv
      · rintro p rfl
        exact (h.handles p (hk p (by simp [Decl.uses,hv]))).1
    have hrun : (s.after E (.dependsOn (.obj o) list)).core = (dependsOn E o list s.core).2 := by
      change (declare E (.dependsOn (.obj o) list) s.core).2 = _
      rw [declare_dependsOn hmethod,snd_run_bind_pure]
    rw [declare_dependsOn hmethod] at hr
    obtain ⟨_,hret,_⟩ := ret_of_bind_pure hr
    obtain ⟨hreg,ms,hms,hadd⟩ := dependsOn_ret (E := E) h.represents hname hown ht hlist hret
    have hev := ((moves_dependsOn E o list) s.core hc).2
    rw [hrun] at hnames ⊢
    refine ⟨ht,⟨own,hname,?_⟩,?_⟩
    · rcases hd.2 o own rfl hattr with hk | hk
      · exact hreg hk
      · rw [hev.registry own (by simp [hk]),hk]
    · intro v hv
      have hmem := List.mem_map_of_mem (f := entryName s.core) hv
      rw [hms,List.mem_map] at hmem
      obtain ⟨m,hm,hsome⟩ := hmem
      refine ⟨m,entryName_keep hc hnames ?_ hsome.symm,?_⟩
      · rintro p rfl
        exact h.handles p (hk p (by simp [Decl.uses,List.takeWhile_prefix _ |>.subset hv]))
      · rw [hadd.own]
        exact Finset.mem_union_left _ (List.mem_toFinset.mpr hm)

/-- One declaration. -/
theorem Session.Recorded.after (hr : s.Recorded) (h : s.Tidy log) {d : Decl} (hk : s.Knows d)
    (hd : KeepsDeps s.core d) : (s.after E d).Recorded := by
  have hc := h.represents.sound
  have hev : s.core.Extends (s.after E d).core := (moves_declare E d s.core hc).2
  obtain ⟨⟨_,htidy⟩,hnames⟩ := h.after (E := E) hk hd.plain
  have hmono : ∀ p, s.Handle p → (s.after E d).Handle p := fun p ⟨d',hin⟩ =>
    ⟨d',List.mem_cons_of_mem _ hin⟩
  constructor
  · intro n o hin
    rcases List.mem_cons.mp hin with heq | hin
    · obtain ⟨rfl,hret⟩ := Prod.mk.inj heq
      exact obtained_targetIndex h.represents (Prod.ext hret.symm rfl)
    · have hlt := (h.handles o ⟨_,hin⟩).1
      rcases hr.obtained n o hin with hmt | hreg | hname
      · exact .inl hmt
      · exact .inr (.inl (by rw [hev.registry n (by simp [hreg]),hreg]))
      · exact .inr (.inr (hnames.2 o hlt n hname))
  · intro o list v hin
    rcases List.mem_cons.mp hin with heq | hin
    · obtain ⟨rfl,hret⟩ := Prod.mk.inj heq
      obtain ⟨ht,⟨own,hname,hreg⟩,hcov⟩ := given_dependsOn h hk hd hnames hret.symm
      have hlt := hc.allocated o ht
      refine ⟨fun p hp => hmono p (hk p (by simp [Decl.uses,hp])),?_,⟨own,?_,hreg⟩,hcov⟩
      · rw [hev.isTarget o hlt,ht]
      · exact hnames.2 o hlt own hname
    · obtain ⟨hlist,ht,⟨own,hname,hreg⟩,hcov⟩ := hr.given o list v hin
      have hlt := hc.allocated o ht
      refine ⟨fun p hp => hmono p (hlist p hp),?_,⟨own,?_,?_⟩,?_⟩
      · rw [hev.isTarget o hlt,ht]
      · exact hnames.2 o hlt own hname
      · rw [hev.registry own (by simp [hreg]),hreg]
      · exact hcov.keep hc hev hnames ht fun p hp => h.handles p (hlist p hp)

/-- In a run that satisfies `KeepsDeps`, what was declared through a handle that was obtained
for a name is in the dependencies of the target that is registered under the name. -/
theorem declared_deps_kept (h : s.Run E KeepsDeps) {n : String} {o : ObjId}
    (hobtained : (.index n,.ret (.obj o)) ∈ s.history) {list : List Value} {v : Value}
    (hgiven : (.dependsOn (.obj o) list,.ret v) ∈ s.history) :
    ∃ r, s.core.registry n = .obj r ∧ Covers s.core r list := by
  have hrec : s.Recorded := by
    clear hobtained hgiven
    induction h with
    | start files => exact ⟨by simp,by simp⟩
    | step hrun hk hd ih =>
      obtain ⟨log,hlog⟩ := hrun.tidy fun _ _ h => h.plain
      exact ih.after hlog hk hd
  obtain ⟨_,ht,⟨own,hname,hreg⟩,hcov⟩ := hrec.given o list v hgiven
  refine ⟨o,?_,hcov⟩
  rcases hrec.obtained n o hobtained with rfl | hn | hn
  · obtain ⟨log,hlog⟩ := h.tidy fun _ _ h => h.plain
    rw [hlog.represents.sound.mt] at ht
    cases ht
  · exact hn
  · rw [hn] at hname
    cases hname
    exact hreg

end

/-- Two lookups of `x`, which is not defined; the first handle then depends on `a`. -/
def Session.twoHandles : Session :=
  ((Session.fresh.after Env.plain (.index "x")).after Env.plain (.index "x")).after Env.plain
    (.dependsOn (.obj 3) [.str "a"])

theorem run_twoHandles : Session.twoHandles.Run Env.plain KeepsDeps := by
  have hindex : ((Session.fresh.after Env.plain (.index "x")).after Env.plain (.index "x")).Run
      Env.plain KeepsDeps :=
    ((Session.Run.start _).step (by simp [Session.Knows,Decl.uses]) trivial).step
      (by simp [Session.Knows,Decl.uses]) trivial
  refine hindex.step ?_ ⟨by decide,?_⟩
  · intro o ho
    obtain rfl : o = 3 := by simpa [Decl.uses] using ho
    exact ⟨.index "x",List.mem_cons_of_mem _ (List.mem_cons.mpr (.inl rfl))⟩
  · rintro o own ⟨⟩ hown
    obtain rfl : own = "x" := by
      have hx : (Value.str "x") = .str own := hown
      cases hx
      rfl
    exact .inl rfl

theorem declared_deps_kept_twoHandles :
    ∃ r, Session.twoHandles.core.registry "x" = .obj r ∧ Covers Session.twoHandles.core r [.str "a"] :=
  declared_deps_kept run_twoHandles (n := "x") (o := 3) (v := .nil)
    (List.mem_cons_of_mem _ (List.mem_cons_of_mem _ (List.mem_cons.mpr (.inl rfl))))
    (List.mem_cons.mpr (.inl rfl))

/-- What is then declared through the second handle is lost. -/
theorem second_handle_loses :
    ∃ s : Session, s.Run Env.plain (fun _ _ => True) ∧ (.index "x",.ret (.obj 4)) ∈ s.history ∧
      (.dependsOn (.obj 4) [.str "b"],.ret .nil) ∈ s.history ∧
      s.core.registry "x" = .obj 3 ∧ "b" ∉ s.core.deps 3 := by
  refine ⟨Session.twoHandles.after Env.plain (.dependsOn (.obj 4) [.str "b"]),?_,?_,?_,?_,?_⟩
  · refine (run_twoHandles.mono fun _ _ _ => trivial).step ?_ trivial
    intro o ho
    obtain rfl : o = 4 := by simpa [Decl.uses] using ho
    exact ⟨.index "x",List.mem_cons_of_mem _ (List.mem_cons.mpr (.inl rfl))⟩
  · exact List.mem_cons_of_mem _ (List.mem_cons_of_mem _ (List.mem_cons.mpr (.inl rfl)))
  · exact List.mem_cons.mpr (.inl rfl)
  · decide
  · decide

end Presto

import Presto.Registry.Bindings

/-! What a call of `depends_on` that returns has added: the names of its entries, to the
dependencies of one target. -/
namespace Presto
open Program

/-- The dependency names of a table. -/
def Core.deps (c : Core) (o : ObjId) : Finset String :=
  match c.rawget o "deps" with
  | .names s => s
  | _ => ∅

/-- The dependency name that an entry of the list stands for. -/
def entryName (c : Core) : Value → Option String
  | .str s => some s
  | .obj o =>
    match c.attr o "name" with
    | .str s => some s
    | _ => none
  | _ => none

/-- From `c` to `c'` the dependencies of `t` have grown by `m`, those of no other table. -/
structure AddsDep (c c' : Core) (t : ObjId) (m : Finset String) : Prop where
  own : c'.deps t = m ∪ c.deps t
  others : ∀ o < c.next, o ≠ t → c'.deps o = c.deps o

namespace Core
variable {c c' c'' : Core} {self : ObjId}

theorem deps_of_rawget {s : Finset String} {o : ObjId} (h : c.rawget o "deps" = .names s) :
    c.deps o = s := by
  simp [deps,h]

theorem deps_congr {o : ObjId} (h : c'.rawget o "deps" = c.rawget o "deps") : c'.deps o = c.deps o := by
  unfold Core.deps
  rw [h]

theorem Sound.attr_deps (h : c.Sound) {o : ObjId} (ho : (c.heap o).isTarget) :
    c.attr o "deps" = .names (c.deps o) := by
  obtain ⟨s,hs⟩ := h.deps o ho
  rw [attr_eq_rawget (by simp [hs]),hs,deps_of_rawget hs]

theorem Quiet.deps (h : c.Quiet c') {o : ObjId} (ho : o < c.next) : c'.deps o = c.deps o :=
  deps_congr (h.rawget ho _)

end Core

theorem AddsDep.refl (c : Core) (self : ObjId) : AddsDep c c self ∅ :=
  ⟨by simp,fun _ _ _ => rfl⟩

theorem AddsDep.trans {a b c : Core} {self : ObjId} {m k : Finset String} (h : AddsDep a b self m)
    (h' : AddsDep b c self k) (hn : a.next ≤ b.next) : AddsDep a c self (k ∪ m) where
  own := by rw [h'.own,h.own,Finset.union_assoc]
  others o ho hne := (h'.others o (ho.trans_le hn) hne).trans (h.others o ho hne)

theorem Core.Quiet.addsDep {c c' : Core} (h : c.Quiet c') {self : ObjId} (hs : self < c.next) :
    AddsDep c c' self ∅ :=
  ⟨by rw [h.deps hs,Finset.empty_union],fun _ ho _ => h.deps ho⟩

section
variable {E : Env} {c : Core} {self : ObjId}

theorem readDeps_target (hc : c.Sound) (ht : (c.heap self).isTarget) :
    readDeps self c = (.ret (c.deps self),c) := by
  simp [readDeps,hc.attr_deps ht]

theorem addsDep_insertDep (hc : c.Sound) (hs : (c.heap self).isTarget) (name : String) :
    AddsDep c (insertDep self name c).2 self {name} := by
  unfold insertDep
  rw [run_bind_of_ret (readDeps_target hc hs)]
  change AddsDep c (c.rawset self "deps" (.names (insert name (c.deps self)))) self {name}
  constructor
  · rw [Core.deps_of_rawget (s := insert name (c.deps self)) (by simp)]
    exact Finset.insert_eq ..
  · intro o _ ho
    simp [Core.deps,ho]

/-- A call of `addDependency` that returns has added the name of the given target. -/
theorem addDependency_ret (hc : c.Sound) (hs : (c.heap self).isTarget) (v : Value) :
    wp (addDependency E self v) (fun o c' => o = .ret () →
      ∃ m t, entryName c v = some m ∧ v = .obj t ∧ (c.heap t).isTarget ∧ AddsDep c c' self {m}) c := by
  unfold addDependency
  simp only [wp_bind,wp_gets,seqPost_ret,id]
  cases v with
  | obj o =>
    simp only [wp_ite]
    split_ifs with ht
    · cases hn : c.attr o "name" with
      | str name =>
        cases c.attr self "name" with
        | str own =>
          simp only [wp_ite]
          have hm : entryName c (.obj o) = some name := by simp [entryName,hn]
          split_ifs with hr
          · apply wp_bind_of ((quiet_asTable _).wp c)
            · intro root c₁ h₁
              have hq : wp (callMethod E .checkForCycle "check_for_cycle" root
                  (checkForCycle E E.stack root own name) fun _ => ()) (fun _ c₂ => c.Quiet c₂) c₁ :=
                trans_of Core.Quiet h₁
                  (moves_callMethod E fun _ => quiet_checkForCycle E _ root own name c₁)
              apply wp_bind_of hq
              · intro _ c₂ h₂ _
                have hs₂ : (c₂.heap self).isTarget := by rwa [h₂.heap self (hc.allocated self hs)]
                refine ⟨name,o,hm,rfl,ht,?_⟩
                have ha := (h₂.addsDep (hc.allocated self hs)).trans
                  (addsDep_insertDep (h₂.sound hc) hs₂ name) h₂.next
                rwa [Finset.union_empty] at ha
              · exact fun _ _ _ h => by cases h
              · exact fun _ _ h => by cases h
            · exact fun _ _ _ h => by cases h
            · exact fun _ _ h => by cases h
          · intro _
            exact ⟨name,o,hm,rfl,ht,addsDep_insertDep hc hs name⟩
        | _ => exact fun h => by cases h
      | _ => exact fun h => by cases h
    · exact fun h => by cases h
  | _ => exact fun h => by cases h

theorem Core.Steady.entryName {c c' : Core} (h : c.Steady c') (hc : c.Sound) {v : Value}
    (hv : ∀ o, v = .obj o → o < c.next) : entryName c' v = entryName c v := by
  cases v with
  | obj o => simp only [Presto.entryName,h.attr hc (hv o rfl) (by decide : "name" ≠ "deps")]
  | _ => rfl

/-- What a lookup by name returns has that name. -/
theorem entryName_targetIndex {log : List (String × ObjId)} (h : c.Represents log) {name : String}
    (hn : name ≠ "__default") {t : ObjId} {c' : Core} (hr : targetIndex name c = (.ret (.obj t),c'))
    (ht : (c'.heap t).isTarget) : entryName c' (.obj t) = some name := by
  have hname : c'.rawget t "name" = .str name := by
    rcases targetIndex_cases name c with ⟨_,_,hx⟩ | ⟨_,_,_,hx⟩ | ⟨_,_,hk,hx⟩ | ⟨_,_,_,hx⟩ <;>
      rw [hr] at hx
    · rw [h.proxy] at hx
      cases hx
    · cases hx
    · obtain ⟨hv,rfl⟩ := Prod.mk.inj hx
      have hv := Outcome.ret.inj hv
      by_cases hp : protectedMember name = .nil
      · have hin : name ∈ log.map Prod.fst := by
          by_contra hin
          exact hk (h.rest name hp hn hin)
        obtain ⟨e,he,rfl⟩ := List.mem_map.mp hin
        rw [h.bound e he] at hv
        cases hv
        exact (h.named e he).2
      · rw [Core.protectedMember_table ((h.sound.member name hp).symm.trans hv.symm),
          h.sound.mt] at ht
        cases ht
    · obtain ⟨hv,rfl⟩ := Prod.mk.inj hx
      cases hv
      simp [Core.rawget,Core.instance]
  rw [entryName,Core.attr_eq_rawget (by simp [hname]),hname]

/-- An entry of the list of a settled target that is processed without an error. -/
theorem dependsOnEntry_ret {log : List (String × ObjId)} (h : c.Represents log) {own : String}
    (hs : c.Settled self own) (ht : (c.heap self).isTarget) {v : Value}
    (hv : v ≠ .str "__default") :
    wp (dependsOnEntry E self v) (fun o c' => o = .ret () →
      ∃ m, entryName c v = some m ∧ AddsDep c c' self {m}) c := by
  by_cases hstr : ∃ name, v = .str name
  · obtain ⟨name,rfl⟩ := hstr
    have hname : name ≠ "__default" := by
      rintro rfl
      exact hv rfl
    have hself := h.sound.allocated self ht
    have hi : wp (targetIndex name) (fun o c' => c.Quiet c' ∧ targetIndex name c = (o,c')) c :=
      ⟨quiet_targetIndex name c,rfl⟩
    apply wp_bind_of hi
    · rintro dep c₁ ⟨hq,hr⟩
      have ht₁ : (c₁.heap self).isTarget := by rwa [hq.heap self hself]
      apply wp_bind_ret (registerSelf_of_settled E (hq.steady.settled h.sound hs))
      apply wp_mono (addDependency_ret (hq.sound h.sound) ht₁ dep)
      intro o c' hret ho
      obtain ⟨m,t,hm,rfl,htt,ha⟩ := hret ho
      rw [entryName_targetIndex h hname hr htt] at hm
      cases hm
      have hadd := (hq.addsDep hself).trans ha hq.next
      rw [Finset.union_empty] at hadd
      exact ⟨name,rfl,hadd⟩
    · exact fun _ _ _ h => by cases h
    · exact fun _ _ h => by cases h
  · rw [dependsOnEntry_of_not_str E fun s hs => hstr ⟨s,hs⟩]
    apply wp_mono (addDependency_ret h.sound ht v)
    intro o c' hr ho
    obtain ⟨m,_,hm,_,_,ha⟩ := hr ho
    exact ⟨m,hm,ha⟩

/-- The loop of `depends_on` that ends without an error has added the names of all entries. -/
theorem dependsOnEntries_ret {log : List (String × ObjId)} (h : c.Represents log) {own : String}
    (hs : c.Settled self own) (ht : (c.heap self).isTarget) {list : List Value}
    (hlist : ∀ v ∈ list, v ≠ .str "__default" ∧ ∀ o, v = .obj o → o < c.next) :
    wp (dependsOnEntries E self list) (fun o c' => o = .ret () →
      ∃ ms : List String, (list.takeWhile fun v => v ≠ .nil).map (entryName c) = ms.map some ∧
        AddsDep c c' self ms.toFinset) c := by
  have hloop : wp (forEach (γ := Empty) (fun v (_ : Unit) => do
      dependsOnEntry E self v
      pure (.next ())) (list.takeWhile fun v => v ≠ .nil) ()) (fun o c' => (∃ x, o = .ret x) →
      ∃ ms : List String, (list.takeWhile fun v => v ≠ .nil).map (entryName c) = ms.map some ∧
        AddsDep c c' self ms.toFinset) c := by
    apply wp_forEach fun xs _ c' => ∃ done, ∃ ms : List String,
      list.takeWhile (fun v => v ≠ .nil) = done++xs ∧
      c.Steady c' ∧ done.map (entryName c) = ms.map some ∧ AddsDep c c' self ms.toFinset
    · rintro v xs _ c₁ ⟨done,ms,hl,hst,hms,ha⟩
      have hin : v ∈ list := by
        have hv : v ∈ list.takeWhile fun v => v ≠ .nil := by
          rw [hl]
          exact List.mem_append_right done List.mem_cons_self
        exact List.takeWhile_prefix _ |>.subset hv
      obtain ⟨hdef,halloc⟩ := hlist v hin
      have hs₁ := hst.settled h.sound hs
      have ht₁ : (c₁.heap self).isTarget := by rwa [hst.isTarget self (h.sound.allocated self ht)]
      have hv₁ : wp (dependsOnEntry E self v) (fun _ c₂ => c₁.Steady c₂) c₁ :=
        steady_dependsOnEntry E (h.steady hst).sound hs₁ v
      apply wp_bind_of (wp_and (dependsOnEntry_ret (h.steady hst) hs₁ ht₁ hdef) hv₁)
      · rintro _ c₂ ⟨hret,hst₂⟩
        obtain ⟨m,hm,ha₂⟩ := hret rfl
        rw [hst.entryName h.sound halloc] at hm
        refine ⟨done++[v],ms++[m],by rw [hl,List.append_assoc]; rfl,trans_of Core.Steady hst hst₂,by simp [hms,hm],?_⟩
        have hadd := ha.trans ha₂ hst.next
        have hset : (ms++[m]).toFinset = {m} ∪ ms.toFinset := by
          ext x
          simp
        rwa [hset]
      · rintro _ _ _ ⟨_,h⟩
        cases h
      · rintro _ _ ⟨_,h⟩
        cases h
    · rintro _ c' ⟨done,ms,hl,_,hms,ha⟩ _
      rw [List.append_nil] at hl
      exact ⟨ms,hl ▸ hms,ha⟩
    · exact ⟨[],[],rfl,refl_of Core.Steady c,rfl,AddsDep.refl c self⟩
  apply wp_bind_of hloop
  · exact fun x c' hx _ => hx ⟨x,rfl⟩
  · exact fun _ _ _ h => by cases h
  · exact fun _ _ h => by cases h

/-- A target that is registered under the name it has keeps all its fields. -/
theorem rawget_register_own {own : String} (hn : c.rawget self "name" = .str own) (p : ObjId)
    (j : String) : (c.register own self).rawget p j = c.rawget p j := by
  rw [Core.rawget_register]
  split_ifs with h
  · rw [h.1,h.2,hn]
  · rfl

theorem entryName_register_own {own : String} (hc : c.Sound)
    (hn : c.rawget self "name" = .str own) (hfree : c.registry own = .nil)
    (ht : (c.heap self).isTarget) (v : Value) :
    entryName (c.register own self) v = entryName c v := by
  cases v with
  | obj o =>
    have hholder : (c.register own self).holder o "name" = c.holder o "name" := by
      unfold Core.holder
      simp only [Core.chain_register,rawget_register_own hn]
    have hreg : ∀ c' : Core, c'.Sound → ∀ s, c'.registry "name" ≠ .str s := by
      intro c' hc' s hs
      rcases hc'.bound "name" rfl with h | ⟨o,h,_⟩ <;> rw [hs] at h <;> cases h
    have hc' := (Core.evolves_register hfree ht hc).1
    simp only [entryName,Core.attr,hholder]
    cases c.holder o "name" with
    | some p => simp only [rawget_register_own hn]
    | none =>
      simp only [Core.isTarget_register]
      split_ifs
      · cases h : c.registry "name" <;> cases h' : (c.register own self).registry "name" <;>
          first | rfl | exact absurd h (hreg c hc _) | exact absurd h' (hreg _ hc' _)
      · rfl
  | _ => rfl

/-- A target with a name is registered already, or becomes so, or `depends_on` raises. -/
theorem registerSelf_named {log : List (String × ObjId)} (h : c.Represents log) {own : String}
    (hn : c.rawget self "name" = .str own) (hown : own ≠ "defined") (ht : (c.heap self).isTarget) :
    (c.Settled self own ∧ registerSelf E self c = (.ret (),c)) ∨
    (∃ e, registerSelf E self c = (.raise e,c)) ∨
    c.registry own = .nil ∧ registerSelf E self c = (.ret (),c.register own self) ∧
      (c.register own self).Represents (log++[(own,self)]) ∧
      (c.register own self).Settled self own := by
  have hattr : c.attr self "name" = .str own := by
    rw [Core.attr_eq_rawget (by simp [hn]),hn]
  rcases registerSelf_cases E h.proxy self with ⟨own',hs,hr⟩ | ⟨own',hn',hk,hr⟩ | hr
  · have heq : own = own' := by simpa [hattr] using hs.name
    exact .inl ⟨heq ▸ hs,hr⟩
  · rw [hattr] at hn'
    cases hn'
    rcases targetNewindex_cases own (.obj self) c with
      ⟨hd,_⟩ | ⟨_,e,hx⟩ | ⟨_,hb,_,⟨f,hf,_⟩ | ⟨o,ho,_,hx⟩⟩
    · exact absurd hd hown
    · exact .inr (.inl ⟨e,hr.trans hx⟩)
    · cases hf
    · cases ho
      have h₁ := h.register hown hb hk ht (h.unregistered hn hk ht)
      refine .inr (.inr ⟨hk,hr.trans hx,h₁,h₁.proxy,?_,by simp⟩)
      have hraw := rawget_register_own hn self "name"
      rw [Core.attr_eq_rawget (by simp [hraw,hn]),hraw,hn]
  · exact .inr (.inl hr)

/-- A call of `depends_on` that returns has added the names of its entries to the dependencies
of its target, and to no others, and has registered the target if it was not. -/
theorem dependsOn_ret {log : List (String × ObjId)} (h : c.Represents log) {own : String}
    (hn : c.rawget self "name" = .str own) (hown : own ≠ "defined") (ht : (c.heap self).isTarget)
    {list : List Value}
    (hlist : ∀ v ∈ list, v ≠ .str "__default" ∧ ∀ o, v = .obj o → o < c.next) :
    wp (dependsOn E self list) (fun o c' => o = .ret () →
      (c.registry own = .nil → c'.registry own = .obj self) ∧
      ∃ ms : List String, (list.takeWhile fun v => v ≠ .nil).map (entryName c) = ms.map some ∧
        AddsDep c c' self ms.toFinset) c := by
  rcases registerSelf_named (E := E) h hn hown ht with ⟨hs,hr⟩ | ⟨e,hr⟩ | ⟨hk,hr,h₁,hs₁⟩
  · apply wp_bind_ret hr
    apply wp_mono (dependsOnEntries_ret h hs ht hlist)
    intro o c' hret ho
    exact ⟨fun hk => absurd hk hs.known,hret ho⟩
  · exact wp_bind_raise hr (fun h => by cases h)
  · have ht₁ : ((c.register own self).heap self).isTarget := by rwa [Core.isTarget_register]
    have hst : wp (dependsOnEntries E self list) (fun _ c' => (c.register own self).Steady c')
        (c.register own self) := steady_dependsOnEntries E h₁.sound hs₁ list
    apply wp_bind_ret hr
    apply wp_mono (wp_and (dependsOnEntries_ret h₁ hs₁ ht₁ hlist) hst)
    rintro o c' ⟨hret,hst⟩ ho
    obtain ⟨ms,hms,ha⟩ := hret ho
    refine ⟨fun _ => by rw [hst.registry,Core.registry_register_self],ms,?_,?_⟩
    · rw [← hms]
      exact List.map_congr_left fun v _ => (entryName_register_own h.sound hn hk ht v).symm
    · have hdeps : ∀ p, (c.register own self).deps p = c.deps p :=
        fun p => Core.deps_congr (rawget_register_own hn ..)
      exact ⟨by rw [ha.own,hdeps],fun p hp hne => by rw [ha.others p hp hne,hdeps]⟩

end
end Presto

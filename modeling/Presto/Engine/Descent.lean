import Presto.Engine.Answers

/-! Every answer of `bring_up_to_date` is a sign of what it stands for. -/
namespace Presto
open Program Traced

/-- Only tables are written, and what there is to build stays the same. -/
structure Reads (K : Finset String) (w w' : World) : Prop where
  trace : w'.trace = w.trace
  firm : w.now.Firm K w'.now

instance (K : Finset String) : IsPreorder World (Reads K) where
  refl w := ⟨rfl,.refl K w.now⟩
  trans _ _ _ h h' := ⟨h'.trace.trans h.trace,h.firm.trans h'.firm⟩

section
variable {E : Env} {K : Finset String} {α : Type}

theorem reads_quietly {m : Lua α} (h : Moves (Core.Firm K) m) : Moves (Reads K) (quietly m) :=
  fun w => ⟨rfl,h w.now⟩

theorem reads_lessThan (u v : Value) : Moves (Reads K) (lessThan u v) := by
  unfold lessThan
  split
  · exact moves_pure _
  · exact moves_pure _
  · exact moves_raise _

end

namespace Build

/-- A target whose job has been started does not answer `none`. -/
theorem JobStarted.ne_none {E : Env} {B : Build E} {w w' : World} {self : ObjId} {r : Outcome Value Value}
    (h : JobStarted (B := B) w self r w')
    (hlt : self < w'.now.next) : r ≠ .ret Status.none.toValue := by
  intro hr
  have hown : w'.now.rawget self "status" = Status.none.toValue := h.own _ hr
  rcases h.books.accounts.status self hlt with hnil | ⟨s,hne,hv⟩
  · exact toValue_ne_nil _ (hown.symm.trans hnil)
  · have he := hown.symm.trans hv
    cases s <;> first | exact hne rfl | cases he

end Build

namespace Build.Signs
variable {E : Env} {B : Build E} {S : B.Signs} {w₀ w w' : World} {self dep : ObjId} {ks : List ObjId}
  {l : List String} {b : Pass} {α : Type}

/-- A reading after which `Inv` holds again. -/
theorem Facts.read (hf : S.Facts w) (hr : B.Rooted) (hb : B.Books w) (hks : ∀ o ∈ ks, B.Knows w o)
    {m : Engine α} (hrests : Moves (B.Rests ks) m) (hreads : Moves (Reads B.guarded) m)
    (hinv : S.Inv (m w).2) : (B.Books (m w).2 ∧ S.Facts (m w).2) ∧
      w.now.Idles B.guarded (m w).2.now ∧ w.now.Firm B.guarded (m w).2.now := by
  obtain ⟨hb',hi⟩ := hrests w hb hks
  obtain ⟨htrace,hfirm⟩ := hreads w
  have hw : (m w).2 = { w with now := (m w).2.now } := by rw [← htrace]
  have hfacts := hf.move hr hb.toLedger hi hfirm (by rw [← hw]; exact hinv)
  rw [← hw] at hfacts
  exact ⟨⟨hb',hfacts⟩,hi,hfirm⟩

theorem Sifting.read (h : S.Sifting w₀ self ks l b w) (hr : B.Rooted) (hself : self ∈ ks)
    {m : Engine α} (hrests : Moves (B.Rests ks) m) (hreads : Moves (Reads B.guarded) m)
    (hinv : S.Inv (m w).2) : S.Sifting w₀ self ks l b (m w).2 := by
  obtain ⟨⟨ho,hw⟩,hs⟩ := h
  obtain ⟨⟨hb,hf⟩,hi,hfirm⟩ := hs.facts.read hr ho.books ho.knows hrests hreads hinv
  refine ⟨⟨ho.idles hself hb hi,fun hM hmw => by rw [hi.count]; exact hw hM hmw⟩,?_⟩
  exact hs.step ho.books (ho.lt_next hself) hf (.of_idles hr hi hfirm)

/-- A target with a dependency is registered. -/
theorem Knows.target (h : B.Knows w self) {name : String} (hname : name ∈ B.origin.deps self) :
    ∃ m, B.Target m self := by
  rcases h with hm | ⟨hle,_⟩
  · exact hm
  · have hdeps : B.origin.deps self = ∅ := by
      simp [Core.deps,Core.rawget,B.ready.sound.fresh self hle,noFields]
    rw [hdeps] at hname
    cases hname

/-- One more dependency is done. -/
theorem Sifted.next {name : String} (h : S.Sifted w₀ self (name::l) b w) {b' : Pass}
    (ht : ∃ m, B.Target m self)
    (hdone : b'.mustWait = false → S.done w.now name) (hwait : b'.mustWait = false → b.mustWait = false)
    (hbuild : b'.mustBuild = false → b.mustBuild = false)
    (hclean : b'.mustWait = false → b'.mustBuild = false → S.Clean self name)
    (hsure : S.Sure self → b'.mustBuild = false ∧ b'.mustWait = false) : S.Sifted w₀ self l b' w where
  facts := h.facts
  along := h.along
  present hb := h.present (hbuild hb)
  deps hw herr n hn hl := by
    by_cases he : n = name
    · subst he
      exact ⟨hdone hw,hclean hw⟩
    · obtain ⟨hd,hc⟩ := h.deps (hwait hw) herr n hn (by simp [he,hl])
      exact ⟨hd,fun hb => hc (hbuild hb)⟩
  waits _ := ht
  sure := hsure

theorem compareDep_eq (name : String) : compareDep E self dep name b = (do
    let s ← quietly (readTimestamp E self)
    let t ← quietly (readTimestamp E dep)
    lessThan s t) >>= fun older =>
      if older then do
        markNewer self name
        pure (.next { b with mustBuild := true })
      else pure (.next b) := by
  simp only [compareDep,prog_bind_assoc]

/-- A dependency that has nothing to be done is compared with the target. -/
theorem compareDep_sign (hr : B.Rooted) {name : String}
    (h : S.Sifting w₀ self [self,dep] (name::l) b w) (hname : name ∈ B.origin.deps self)
    (hl : B.Leads w name dep) (hidle : S.done w.now name)
    (hstill : ∀ n, B.Target n dep → S.Still dep)
    (hsource : B.origin.registry name = .nil → E.flags.alwaysMake = false → S.Source name) :
    wp (compareDep E self dep name b) (S.SiftStep w₀ self l) w := by
  have hself : self ∈ [self,dep] := List.mem_cons_self
  obtain ⟨m,ht⟩ := Knows.target (h.1.1.knows self hself) hname
  have hrests : Moves (B.Rests [self,dep]) (do
      let s ← quietly (readTimestamp E self)
      let t ← quietly (readTimestamp E dep)
      lessThan s t) :=
    moves_bind (rests_readCached hself (by decide) _) fun s =>
      moves_bind (rests_readCached (List.mem_cons_of_mem _ List.mem_cons_self) (by decide) _) fun t =>
        rests_lessThan s t
  have hreads : Moves (Reads B.guarded) (do
      let s ← quietly (readTimestamp E self)
      let t ← quietly (readTimestamp E dep)
      lessThan s t) :=
    moves_bind (reads_quietly (firm_readCached (by decide) _ _)) fun s =>
      moves_bind (reads_quietly (firm_readCached (by decide) _ _)) fun t => reads_lessThan s t
  have hcmp := S.compare h.1.1.books h.2.facts.inv ht h.1.1.unsettled hname hl hstill hsource h.2.facts.sure
  have hadv := (h.2.facts.read hr h.1.1.books h.1.1.knows hrests hreads hcmp.1).2.1.advances
  have hafter : wp (do
      let s ← quietly (readTimestamp E self)
      let t ← quietly (readTimestamp E dep)
      lessThan s t) (fun r w' => S.Sifting w₀ self [self,dep] (name::l) b w' ∧ S.done w'.now name ∧
        (r = .ret false → S.Clean self name) ∧ (S.Sure self → r ≠ .ret true)) w :=
    ⟨h.read hr hself hrests hreads hcmp.1,hidle.mono h.1.1.books.stays.next hadv,hcmp.2⟩
  rw [compareDep_eq]
  apply wp_bind_of hafter
  · rintro older w' ⟨hs,hd,hclean,hsure⟩
    cases older with
    | false =>
      exact hs.2.next ⟨m,ht⟩ (fun _ => hd) id id (fun _ _ => hclean rfl) hs.2.sure
    | true =>
      have hno : ¬S.Sure self := fun h => hsure h rfl
      have hstep : Keeps (fun w => S.Sifting w₀ self [self,dep] (name::l) b w ∧ S.done w.now name)
          (markNewer self name) := by
        rintro w ⟨hs,hd⟩
        have hm := bears_markNewer (S := S) hr hself hname
        refine ⟨keeps_sifting hr hm hself w hs,?_⟩
        exact hd.mono hs.1.1.books.stays.next (hm w hs.1.1.books hs.1.1.knows hs.2.facts).2.1.advances
      apply hstep.wp_bind ⟨hs,hd⟩
      · exact fun _ w ⟨hs,hd⟩ => hs.2.next ⟨m,ht⟩ (fun _ => hd) id (fun h => by cases h) (fun _ h => by cases h)
          fun h => absurd h hno
      · exact fun o w ho hw => hw.1.2.ended ho
  · exact fun e w' hw => hw.1.2.ended (by simp)
  · exact fun w' hw => hw.1.2.ended (by simp)

/-- A target loses dependencies that failed. -/
theorem Facts.dropDeps (h : S.Facts w) (hb : B.Books w) (hk : B.Knows w self) {s : Finset String}
    (hs : s ⊆ w.now.deps self) : S.Facts { w with now := w.now.dropDeps self s } := by
  have hall := Core.idles_dropDeps (K := B.guarded) (hk.lt_next hb) hs
  have hinv := S.sees hb.toLedger h.inv hall.toStays Core.sees_dropDeps
  refine ⟨hinv,fun m q ht => ?_,fun q hq hn => ?_,fun m q ht ha n hn => ?_,fun q ha => ?_,h.sure,
    fun m q ht hu => S.keeps (h.good m q ht (by simpa using hu)) rfl,fun i j hl => ?_,h.begun⟩
  · by_cases he : q = self
    · subst he
      exact .inr Core.dropDeps_failed
    · exact (h.pruned m q ht).imp (Core.deps_congr (Core.dropDeps_other he _)).trans
        (Core.dropDeps_other he _).trans
  · have he : q ≠ self := by
      rintro rfl
      rcases hk with ⟨m,hm⟩ | ⟨hle,_⟩
      · exact hn m hm
      · exact absurd hq (not_lt.mpr hle)
    exact ⟨(Core.dropDeps_other he _).trans (h.clear q hq hn).1,(Core.dropDeps_other he _).trans (h.clear q hq hn).2⟩
  · exact (h.closed m q ht (ha.of_idles hall) n hn).mono hb.stays.next hall.advances
  · exact h.touched q (ha.of_idles hall)
  · obtain ⟨q,hq,ht,hs⟩ := h.jobs i j hl
    exact ⟨q,hq,ht,by simpa using hs⟩

theorem Along.dropDeps (hlt : self < w.now.next) {s : Finset String} (hs : s ⊆ w.now.deps self) :
    B.Along w { w with now := w.now.dropDeps self s } := by
  have hall := Core.idles_dropDeps (K := B.guarded) hlt hs
  refine ⟨hall.toStays,hall.advances,fun q _ hq => ?_⟩
  by_cases he : q = self
  · subst he
    exact Core.dropDeps_failed
  · exact (Core.dropDeps_other he _).trans hq

theorem prune_sign {name : String} (h : S.Sifting w₀ self [self] (name::l) b w) : wp (do
    prune self name
    setField self "dep_status" Status.error.toValue
    pure (.next b)) (S.SiftStep w₀ self l) w := by
  have hb := h.1.1.books
  have hk := h.1.1.knows self List.mem_cons_self
  have hlt := hk.lt_next hb
  unfold prune
  rw [wp_bind_assoc]
  rcases readDeps_cases self w.now with ⟨s,hs,hrun⟩ | ⟨e,hrun⟩
  · apply wp_bind_ret (quietly_ret hrun)
    rw [wp_bind_setField,wp_bind_setField]
    have hsub : s.erase name ⊆ w.now.deps self := by
      rw [Core.deps_of_rawget (hk.deps hb hs)]
      exact Finset.erase_subset name s
    have hs' := h.2.step hb hlt (h.2.facts.dropDeps hb hk hsub) (Along.dropDeps hlt hsub)
    exact ⟨hs'.facts,hs'.along,hs'.present,fun _ herr => absurd Core.dropDeps_failed herr,hs'.waits,hs'.sure⟩
  · exact wp_bind_raise (m := quietly (readDeps self)) (e := e)
      (by simp [quietly,Prog.traced,hrun]) (h.2.ended (by simp))

/-- A failed dependency ends the target, or the target remembers that it has failed. -/
theorem failDep_sign (hr : B.Rooted) {name : String} (h : S.Sifting w₀ self [self] (name::l) b w) :
    wp (failDep E self dep name b) (S.SiftStep w₀ self l) w := by
  have hend : ∀ (o : Outcome Value (Step Pass Value)) w, (∀ x, o ≠ .ret x) →
      S.Sifting w₀ self [self] (name::l) b w → S.SiftStep w₀ self l o w := fun o w ho hw => hw.2.ended ho
  have hself : self ∈ [self] := List.mem_cons_self
  unfold failDep
  rw [wp_bind_core]
  apply (keeps_sifting hr (bears_concatText _) hself).wp_bind h _ hend
  intro depName w h
  apply (keeps_sifting hr (bears_message _) hself).wp_bind h _ hend
  intro _ w h
  apply (keeps_sifting hr (bears_messageIf _) hself).wp_bind h _ hend
  intro _ w h
  rw [wp_ite]
  split_ifs
  · exact prune_sign h
  · have hk := h.1.1.knows self hself
    have hv : (w.now.rawset self "status" Status.error.toValue).attr self "status" =
        Status.error.toValue := attr_status_rawset w.now self .error
    refine ⟨hv,h.2.facts.markError hr h.1.1.books hk h.1.1.unsettled,h.2.along.trans ?_⟩
    exact .mark (s := .error) (by simp) (hk.lt_next h.1.1.books) h.1.1.unsettled rfl

theorem Knows.ne_mt (h : B.Knows w dep) : dep ≠ mtTable := by
  rintro rfl
  rcases h with ⟨m,_,ht⟩ | ⟨hle,_⟩
  · rw [B.ready.sound.mt] at ht
    cases ht
  · exact absurd (Nat.lt_of_lt_of_le (by decide) B.ready.sound.classes) (not_lt.mpr hle)

/-- What is known after a dependency has been asked for. -/
def VisitSign (S : B.Signs) (w : World) (dep : ObjId) : Outcome Value (Except Value Value) → World → Prop
  | .ret (.ok v),w' => S.Answer w dep (.ret v) w' ∧ B.Knows w dep
  | .ret (.error _),w' => S.Facts w' ∧ B.Along w w'
  | .raise _,w' => S.Facts w' ∧ B.Along w w'
  | .diverge,w' => S.Facts w' ∧ B.Along w w'

theorem visit_sign {bring : ObjId → Engine Value} (hr : B.Rooted)
    (hbring : ∀ o w, Called B w o → S.Facts w → wp (bring o) (S.Answer w o) w) (hb : B.Books w)
    (hroom : w.now.count < E.slots) (hf : S.Facts w) (hdep : B.Knows w dep ∨ dep = mtTable) :
    wp (visit E bring dep) (S.VisitSign w dep) w := by
  have hcall : wp (callBring E bring dep)
      (fun r w' => S.Answer w dep r w' ∧ ∀ v, r = .ret v → B.Knows w dep) w := by
    rcases hdep with hk | rfl
    · unfold callBring
      rw [wp_bind_core,method_of_knows hb.toLedger hk hr.method]
      exact wp_mono (hbring dep w ⟨hb,hk,hroom⟩ hf) fun _ _ ha => ⟨ha,fun _ _ => hk⟩
    · apply wp_mono (callBring_mt bring hb)
      rintro r w' ⟨⟨e,rfl⟩,rfl⟩
      exact ⟨.ended hf (.refl B _) (.inr (by simp)),fun v hv => by cases hv⟩
  apply wp_visit E hcall
  · exact fun v w' hw => ⟨hw.1,hw.2 v rfl⟩
  · exact fun e w' hw => ⟨hw.1.facts.emit id,hw.1.along.trans (.of_heap rfl rfl rfl rfl)⟩
  · exact fun w' hw => ⟨hw.1.facts,hw.1.along⟩

/-- The status of a dependency is used. -/
theorem useDep_sign (hr : B.Rooted) {r : Except Value Value} {name : String}
    (hv : B.Visited w₀ self dep r w') (hwait : B.Waiting b w') (hs : S.Sifted w₀ self (name::l) b w')
    (hname : name ∈ B.origin.deps self) (hl : B.Leads w name dep ∨ dep = mtTable) (ha : B.Along w w')
    (hans : ∀ v, r = .ok v → S.Answer w dep (.ret v) w' ∧ B.Knows w dep) :
    wp (useDep E self dep name b (depStatus r)) (S.SiftStep w₀ self l) w' := by
  have hend : ∀ (o : Outcome Value (Step Pass Value)) w, (∀ x, o ≠ .ret x) →
      S.Sifting w₀ self [self] (name::l) b w → S.SiftStep w₀ self l o w := fun o w ho hw => hw.2.ended ho
  have hself : self ∈ [self] := List.mem_cons_self
  have hself' := Knows.target hv.knows hname
  have hsift : depStatus r ≠ Status.running.toValue → S.Sifting w₀ self [self] (name::l) b w' :=
    fun hne => ⟨⟨hv.opened (hv.room.resolve_right fun he => hne (by rw [he]; rfl)),hwait⟩,hs⟩
  have hlead : ∀ v, r = .ok v → B.Leads w name dep := fun v hv => hl.resolve_right (Knows.ne_mt (hans v hv).2)
  unfold useDep
  rw [wp_ite,wp_ite,wp_ite,wp_ite]
  split_ifs with hu hn he hrun
  · have hr' := depStatus_ok (s := .updated) (by simp) hu
    obtain ⟨⟨m,ht⟩,hstatus⟩ := (hans _ hr').1.updated rfl
    have hreg : B.Target name dep := by
      rcases hlead _ hr' with h | ⟨_,hle,_⟩
      · exact h
      · exact absurd ht.lt (not_lt.mpr hle)
    have hno : ¬S.Sure self := fun h => ((hans _ hr').1.sure (S.sure h name hname dep hreg)).1 rfl
    have hkeep : Keeps (fun w => S.Sifting w₀ self [self] (name::l) b w ∧ S.done w.now name)
        (markNewer self name) := by
      rintro w ⟨hs,hd⟩
      have hm := bears_markNewer (S := S) hr hself hname
      refine ⟨keeps_sifting hr hm hself w hs,?_⟩
      exact hd.mono hs.1.1.books.stays.next (hm w hs.1.1.books hs.1.1.knows hs.2.facts).2.1.advances
    apply hkeep.wp_bind ⟨hsift (by rw [hu]; decide),.built hreg hstatus⟩
    · exact fun _ w ⟨hs,hd⟩ => hs.2.next hself' (fun _ => hd) id (fun h => by cases h) (fun _ h => by cases h)
        fun h => absurd h hno
    · exact fun o w ho hw => hw.1.2.ended ho
  · have hr' := depStatus_ok (s := .none) (by simp) hn
    have hidle := (hans _ hr').1.none rfl
    have hlead := hlead _ hr'
    have ho := hsift (by rw [hn]; decide)
    have hk : B.Knows w' dep := hv.known.resolve_right fun ⟨e,he⟩ => by rw [he] at hr'; cases hr'
    refine compareDep_sign hr ⟨⟨⟨ho.1.1.toBrought,ho.1.1.room,ho.1.1.unsettled,fun p hp => ?_⟩,hwait⟩,hs⟩ hname
      (Leads.along hr hlead ha) (hidle.done hlead) (fun n ht => (hidle.target n ht).1)
      (fun hnil hB => hidle.source name hlead hnil hB)
    rcases List.mem_pair.mp hp with rfl | rfl
    · exact hv.knows
    · exact hk
  · exact failDep_sign hr (hsift (by rw [he]; decide))
  · have hr' := depStatus_ok (s := .running) (by simp) hrun
    have hno : ¬S.Sure self := by
      intro h
      rcases hlead _ hr' with ht | ⟨_,hle,_⟩
      · exact ((hans _ hr').1.sure (S.sure h name hname dep ht)).2 rfl
      · obtain ⟨m,hm⟩ := (hans _ hr').1.running rfl
        exact absurd hm.lt (not_lt.mpr hle)
    have hnext : S.Sifted w₀ self l { b with mustWait := true } w' :=
      hs.next hself' (fun h => by cases h) (fun h => by cases h) id (fun h => by cases h) fun h => absurd h hno
    rw [wp_bind_core,wp_ite]
    split_ifs
    · exact ⟨hnext,rfl⟩
    · exact hnext
  · apply (keeps_sifting hr (bears_concatText _) hself).wp_bind (hsift hrun) _ hend
    exact fun _ w h => ⟨h.2.facts,h.2.along⟩

theorem depStep_sign {bring : ObjId → Engine Value} (hr : B.Rooted)
    (hold : ∀ o w, Called B w o → wp (bring o) (B.Answered w o) w)
    (hbring : ∀ o w, Called B w o → S.Facts w → wp (bring o) (S.Answer w o) w) (hb : B.Books w₀)
    (hlt : self < w₀.now.next) {name : String} (h : S.Sifting w₀ self [self] (name::l) b w)
    (hname : name ∈ B.origin.deps self) :
    wp (depStep E bring self name b) (S.SiftStep w₀ self l) w := by
  have hself : self ∈ [self] := List.mem_cons_self
  have hlook : Moves (S.Bears [self]) (quietly (targetIndex name) : Engine Value) :=
    bears_quietly hr (idles_targetIndex name) (bare_targetIndex name)
  have hs := keeps_sifting hr hlook hself w h
  apply wp_lookup
  · intro dep c hrun
    rw [quietly_ret hrun] at hs
    have hl := lookup_leads h.1.1.books hrun
    have hvisit := wp_and (visit_answered hold hb hlt hs.1.1 hs.1.2 (h.1.1.depends hname hrun))
      (visit_sign hr hbring hs.1.1.books hs.1.1.room hs.2.facts (hl.imp_left Leads.knows))
    have hsift : ∀ {w'}, S.Facts w' → B.Along { w with now := c } w' →
        S.Sifted w₀ self (name::l) b w' := fun hf ha =>
      hs.2.step hs.1.1.books (hs.1.1.lt_next hself) hf ha
    apply wp_bind_of hvisit
    · rintro (e | v) w' ⟨⟨hv,hwait⟩,hans⟩
      · exact useDep_sign hr hv hwait (hsift hans.1 hans.2) hname hl hans.2 fun v hv => by cases hv
      · refine useDep_sign hr hv hwait (hsift hans.1.facts hans.1.along) hname hl hans.1.along ?_
        rintro _ ⟨rfl⟩
        exact hans
    · exact fun _ _ hw => (hsift hw.2.1 hw.2.2).ended (by simp)
    · exact fun _ hw => (hsift hw.2.1 hw.2.2).ended (by simp)
  · exact fun e => hs.2.ended (by simp)

/-- The work on `self` has come to its end. -/
def Over (S : B.Signs) (w₀ : World) (self : ObjId) (w : World) : Prop :=
  (B.Books w ∧ B.Knows w self) ∧ S.Facts w ∧ B.Along w₀ w

theorem keeps_over (hr : B.Rooted) {m : Engine α} (hm : Moves (S.Bears [self]) m) :
    Keeps (S.Over w₀ self) m := by
  rintro w ⟨⟨hb,hk⟩,hf,ha⟩
  obtain ⟨⟨hb',hf'⟩,hi,hfirm⟩ := hm w hb (by simpa using hk) hf
  exact ⟨⟨hb',hk.mono hi.next⟩,hf',ha.trans (.of_idles hr hi hfirm)⟩

theorem Sifting.markError (h : S.Sifting w₀ self [self] l b w) (hr : B.Rooted) (hlt : self < w₀.now.next) :
    S.Over w₀ self { w with
      now := w.now.rawset self "status" Status.error.toValue
      trace := (.marked self,w.now.rawset self "status" Status.error.toValue)::w.trace } := by
  have hk := h.1.1.knows self List.mem_cons_self
  have hb := h.1.1.books
  refine ⟨⟨(h.1.1.markError hlt).books,hk⟩,h.2.facts.markError hr hb hk h.1.1.unsettled,?_⟩
  exact h.2.along.trans (.mark (s := .error) (by simp) (hk.lt_next hb) h.1.1.unsettled rfl)

/-- A target that must be built and has no rule fails. -/
theorem noRule_sign (hr : B.Rooted) (hlt : self < w₀.now.next) (h : S.Sifting w₀ self [self] l b w) :
    wp (noRule self) (S.Answer w₀ self) w := by
  have hself : self ∈ [self] := List.mem_cons_self
  have hend : ∀ (o : Outcome Value Value) w, (∀ x, o ≠ .ret x) → S.Over w₀ self w →
      S.Answer w₀ self o w := fun o w ho hw => .ended hw.2.1 hw.2.2 (.inr ho)
  unfold noRule
  rw [Presto.markError,wp_bind_assoc,setStatus,wp_bind_setField,wp_bind_emit,wp_bind_core]
  apply (keeps_over hr (bears_concatText _)).wp_bind (h.markError hr hlt) _ hend
  intro name w h
  apply (keeps_over hr (bears_setField hr hself rfl)).wp_bind h _ hend
  exact fun _ w h => hend _ _ (by simp) h

/-- A target with a command that must be built is started when its dependencies are done. -/
theorem jobsStart_sign (hr : B.Rooted) (h : S.Sifting w₀ self [self] l b w)
    (hc : (w.now.attr self "command").truthy) (hno : ¬S.Sure self)
    (hdone : ∀ n ∈ B.origin.deps self, S.done w.now n) : wp (jobsStart E self) (S.Answer w₀ self) w := by
  obtain ⟨⟨ho,_⟩,hs⟩ := h
  have hk := ho.knows self List.mem_cons_self
  obtain ⟨f,hf,_⟩ := hk.callable ho.books.toLedger hr.commands hc
  obtain ⟨m,ht⟩ := hk.registered_of_command ho.books.toLedger hf
  apply wp_mono (wp_and (jobsStart_books ho.books hk ho.unsettled ho.room hc)
    (hs.facts.jobsStart hr ho.books ht ho.unsettled hno hdone))
  rintro r w' ⟨hb,hf,ha⟩
  have hlt : self < w'.now.next := (hk.lt_next ho.books).trans_le hb.next
  refine ⟨hf,hs.along.trans ha,fun hn => absurd hn (hb.ne_none hlt),fun hu => ⟨⟨m,ht⟩,hb.own _ hu⟩,fun _ => ⟨m,ht⟩,
    fun h => absurd h hno,fun v hv => ?_⟩
  have hown := hb.own v hv
  rcases hb.books.accounts.status self hlt with hnil | ⟨s,_,hs'⟩
  · exact absurd (hown.symm.trans hnil) (hb.answers v hv)
  · exact ⟨s,hown.symm.trans hs'⟩

/-- Only with `-B` it is found that a target without a command is there. -/
theorem unbuildable_inv (h : S.Sifting w₀ self [self] l b w) :
    wp (unbuildable E self) (fun r w' => S.Inv w' ∧ (r = .ret false → E.flags.alwaysMake = true)) w := by
  obtain ⟨⟨ho,_⟩,hs⟩ := h
  unfold unbuildable
  rw [wp_ite]
  split_ifs with hB
  · have hread := S.reading ho.books hs.facts.inv (ho.knows self List.mem_cons_self) ho.unsettled
    rw [wp_bind]
    unfold wp
    rcases hrun : readExists E self w.now with ⟨v | e | _,c⟩ <;> rw [hrun] at hread
    · simp only [quietly,Prog.traced,hrun]
      exact ⟨hread,fun _ => hB⟩
    · simp only [quietly,Prog.traced,hrun]
      exact ⟨hread,fun h => by cases h⟩
    · simp only [quietly,Prog.traced,hrun]
      exact ⟨hread,fun h => by cases h⟩
  · exact ⟨hs.facts.inv,fun h => by cases h⟩

/-- A target without a command that must be built fails, unless it is there and `-B` is given. -/
theorem unbuildable_sign (hr : B.Rooted) (hlt : self < w₀.now.next) (h : S.Sifting w₀ self [self] l b w)
    (hc : ¬(w.now.attr self "command").truthy) (hno : ¬S.Sure self)
    (hdone : ∀ n ∈ B.origin.deps self, S.done w.now n) :
    wp (unbuildable E self >>= fun u => if u then noRule self else pure Status.none.toValue)
      (S.Answer w₀ self) w := by
  have hself : self ∈ [self] := List.mem_cons_self
  have ho := h.1.1
  have hrests : Moves (B.Rests [self]) (unbuildable E self) := rests_unbuildable hself
  have hreads : Moves (Reads B.guarded) (unbuildable E self) :=
    moves_ite (moves_bind (reads_quietly (firm_readCached (by decide) _ _)) fun _ => moves_pure _) (moves_pure _)
  have hinv := unbuildable_inv h
  have hkeep : wp (unbuildable E self) (fun r w' => S.Sifting w₀ self [self] l b w' ∧
      (r = .ret false → E.flags.alwaysMake = true) ∧ ∀ n ∈ B.origin.deps self, S.done w'.now n) w :=
    ⟨h.read hr hself hrests hreads hinv.1,hinv.2,fun n hn => (hdone n hn).mono ho.books.stays.next
      (hrests w ho.books ho.knows).2.advances⟩
  apply wp_bind_of hkeep
  · rintro (_ | _) w' ⟨hs,hB,hd⟩
    · have hB := hB rfl
      refine ⟨hs.2.facts,hs.2.along,fun _ => ⟨fun m ht => ⟨S.bound ht hB ?_,hd⟩,fun m _ _ hB' => ?_⟩,
        (fun h => by cases h),(fun h => by cases h),fun h => absurd h hno,
        fun v hv => ⟨.none,(Outcome.ret.inj hv).symm⟩⟩
      · rw [← Ledger.attr_command ho.books.toLedger hr ht]
        exact Bool.not_eq_true _ ▸ hc
      · rw [hB] at hB'
        cases hB'
    · exact noRule_sign hr hlt hs
  · exact fun e w' hw => .ended hw.1.2.facts hw.1.2.along (.inr (by simp))
  · exact fun w' hw => .ended hw.1.2.facts hw.1.2.along (.inr (by simp))

/-- What follows the loop over the dependencies. -/
theorem finishTargetUpdate_sign (hr : B.Rooted) (hlt : self < w₀.now.next)
    (h : B.Opened w₀ self [self] w ∨ B.Brought w₀ self w ∧ b.mustWait = true)
    (hs : S.Sifted w₀ self l b w) (hl : b.mustWait = false → l = []) :
    wp (finishTargetUpdate E self b) (S.Answer w₀ self) w := by
  have hsift : b.mustWait ≠ true → S.Sifting w₀ self [self] l b w := fun hne =>
    ⟨⟨h.resolve_right fun hw => hne hw.2,fun _ hw => absurd hw hne⟩,hs⟩
  have hno : b.mustBuild = true → ¬S.Sure self := fun hm h => absurd (hs.sure h).1 (by simp [hm])
  have hdone : b.mustWait ≠ true → w.now.attr self "dep_status" ≠ Status.error.toValue →
      ∀ n ∈ B.origin.deps self, S.done w.now n ∧ (b.mustBuild = false → S.Clean self n) := by
    intro hw hd n hn
    have hw : b.mustWait = false := by simpa using hw
    refine hs.deps hw (fun he => hd ?_) n hn (by rw [hl hw]; simp)
    rw [Core.attr_eq_rawget (by rw [he]; exact toValue_ne_nil _),he]
  unfold finishTargetUpdate
  rw [wp_bind_core,wp_ite,wp_ite,wp_ite,wp_ite,wp_ite]
  split_ifs with hw hd hm hq hc
  · refine ⟨hs.facts,hs.along,(fun h => by cases h),(fun h => by cases h),fun _ => hs.waits hw,fun h => ?_,
      fun v hv => ⟨.running,(Outcome.ret.inj hv).symm⟩⟩
    exact absurd (hs.sure h).2 (by simp [hw])
  · have hover := (hsift hw).markError hr hlt
    have hv : (w.now.rawset self "status" Status.error.toValue).attr self "status" =
        Status.error.toValue := attr_status_rawset w.now self .error
    exact .ended hover.2.1 hover.2.2 (.inl (congrArg Outcome.ret hv))
  · exact .ended hs.facts hs.along (.inr (by simp))
  · exact jobsStart_sign hr (hsift hw) hc (hno hm) fun n hn => (hdone hw hd n hn).1
  · exact unbuildable_sign hr hlt (hsift hw) hc (hno hm) fun n hn => (hdone hw hd n hn).1
  · have hb : b.mustBuild = false := by simpa using hm
    obtain ⟨hB,hpresent,hsource⟩ := hs.present hb
    have hdone' := hdone hw hd
    refine ⟨hs.facts,hs.along,fun _ => ⟨fun m ht => ⟨?_,fun n hn => (hdone' n hn).1⟩,fun m hl hn _ => hsource m hl hn⟩,
      (fun h => by cases h),(fun h => by cases h),fun _ => ⟨by simp [Status.toValue],by simp [Status.toValue]⟩,
      fun v hv => ⟨.none,(Outcome.ret.inj hv).symm⟩⟩
    exact S.fresh ht hB (hpresent m ht) fun n hn => (hdone' n hn).2 hb

/-- The work on `self` has begun, and none of its dependencies has been asked for. -/
def Starting (S : B.Signs) (w₀ : World) (self : ObjId) (w : World) : Prop :=
  B.Opened w₀ self [self] w ∧ S.Facts w ∧ B.Along w₀ w

theorem keeps_starting (hr : B.Rooted) {m : Engine α} (hm : Moves (S.Bears [self]) m) :
    Keeps (S.Starting w₀ self) m := by
  rintro w ⟨ho,hf,ha⟩
  obtain ⟨⟨hb,hf'⟩,hi,hfirm⟩ := hm w ho.books ho.knows hf
  exact ⟨ho.idles List.mem_cons_self hb hi,hf',ha.trans (.of_idles hr hi hfirm)⟩

/-- What it says that a target is not missing. -/
theorem missing_sign (hr : B.Rooted) (h : S.Starting w₀ self w) : wp (Presto.missing E self) (fun r w' =>
    S.Starting w₀ self w' ∧ (r = .ret false → E.flags.alwaysMake = false ∧
      (∀ m, B.Target m self → S.Present self) ∧
      ∀ m, B.Leads w₀ m self → B.origin.registry m = .nil → S.Source m) ∧ (S.Sure self → r ≠ .ret true)) w := by
  have hself : self ∈ [self] := List.mem_cons_self
  obtain ⟨ho,hf,ha⟩ := h
  have hrests : Moves (B.Rests [self]) (Presto.missing E self) := rests_missing hself
  have hreads : Moves (Reads B.guarded) (Presto.missing E self) :=
    moves_ite (moves_pure _) (moves_bind (reads_quietly (firm_readCached (by decide) _ _)) fun _ => moves_pure _)
  have hmiss := S.missing ho.books hf.inv (ho.knows self hself) ho.unsettled
  obtain ⟨⟨hb,hf'⟩,hi,hfirm⟩ := hf.read hr ho.books ho.knows hrests hreads hmiss.1
  refine ⟨⟨ho.idles hself hb hi,hf',ha.trans (.of_idles hr hi hfirm)⟩,fun hret => ⟨?_,(hmiss.2.1 hret).1,?_⟩,hmiss.2.2⟩
  · by_contra hB
    have hB : E.flags.alwaysMake = true := by simpa using hB
    unfold Presto.missing at hret
    rw [if_pos hB] at hret
    cases hret
  · exact fun m hl hn => (hmiss.2.1 hret).2 m (Leads.along hr hl ha) hn

/-- The loop over the dependencies begins. -/
theorem Starting.first (h : S.Starting w₀ self w) {mustBuild : Bool}
    (hbuild : ((Outcome.ret mustBuild : Outcome Value Bool) = .ret false → E.flags.alwaysMake = false ∧
      (∀ m, B.Target m self → S.Present self) ∧
      ∀ m, B.Leads w₀ m self → B.origin.registry m = .nil → S.Source m) ∧
        (S.Sure self → (Outcome.ret mustBuild : Outcome Value Bool) ≠ .ret true))
    (hall : w.now.rawget self "dep_status" ≠ Status.error.toValue → ∀ n ∈ B.origin.deps self, n ∈ l) :
    S.Sifting w₀ self [self] l ⟨mustBuild,false⟩ w := by
  refine ⟨⟨h.1,fun _ hw => by cases hw⟩,h.2.1,h.2.2,fun hb => hbuild.1 (congrArg Outcome.ret hb),?_,
    (fun hw => by cases hw),fun hs => ⟨?_,rfl⟩⟩
  · exact fun _ herr n hn hl => absurd (hall herr n hn) hl
  · cases mustBuild
    · rfl
    · exact absurd rfl (hbuild.2 hs)

/-- Unless a dependency has failed, all dependencies are gone through. -/
theorem readDeps_sign (h : S.Starting w₀ self w) :
    wp (quietly (readDeps self) : Engine (Finset String)) (fun o w' => S.Starting w₀ self w' ∧
      ∀ s, o = .ret s → s ⊆ B.origin.deps self ∧
        (w'.now.rawget self "dep_status" ≠ Status.error.toValue → ∀ n ∈ B.origin.deps self, n ∈ s)) w := by
  have hk := h.1.knows self List.mem_cons_self
  rcases readDeps_cases self w.now with ⟨s,hs,hrun⟩ | ⟨e,hrun⟩
  · unfold wp
    rw [quietly_ret hrun]
    refine ⟨h,fun s' hs' => ?_⟩
    cases hs'
    refine ⟨hk.readDeps h.1.books hrun,fun herr n hn => ?_⟩
    obtain ⟨m,ht⟩ := Knows.target hk hn
    have hdeps := (h.2.1.pruned m self ht).resolve_right herr
    rw [Core.deps_of_rawget (hk.deps h.1.books hs)] at hdeps
    rw [hdeps]
    exact hn
  · have hret : (quietly (readDeps self) : Engine (Finset String)) w = (.raise e,w) := by
      simp [quietly,Prog.traced,hrun]
    unfold wp
    rw [hret]
    exact ⟨h,fun s hs => by cases hs⟩

/-- What is gone through first: the dependencies, all of them unless one has failed. -/
theorem visitStart_sign (hr : B.Rooted) (h : S.Starting w₀ self w) : wp (visitStart E self) (fun o w' =>
    S.Starting w₀ self w' ∧ ∀ p, o = .ret p → S.Sifting w₀ self [self] p.2 ⟨p.1,false⟩ w' ∧
      (∀ m ∈ p.2, m ∈ B.origin.deps self) ∧
      (w'.now.rawget self "dep_status" ≠ Status.error.toValue → ∀ m ∈ B.origin.deps self, m ∈ p.2)) w := by
  have hself : self ∈ [self] := List.mem_cons_self
  have hend : ∀ (o : Outcome Value (Bool × List String)) w', (∀ x, o ≠ .ret x) → S.Starting w₀ self w' →
      S.Starting w₀ self w' ∧ ∀ p, o = .ret p → S.Sifting w₀ self [self] p.2 ⟨p.1,false⟩ w' ∧
        (∀ m ∈ p.2, m ∈ B.origin.deps self) ∧
        (w'.now.rawget self "dep_status" ≠ Status.error.toValue → ∀ m ∈ B.origin.deps self, m ∈ p.2) :=
    fun o w' ho hw => ⟨hw,fun p hp => absurd hp (ho p)⟩
  unfold visitStart
  apply (keeps_starting hr (bears_ensureDepsNewer hr hself)).wp_bind h _ hend
  intro _ w₁ h
  apply wp_bind_of (missing_sign hr h)
  · rintro mustBuild w₂ ⟨h,hbuild⟩
    apply wp_bind_of (readDeps_sign h)
    · rintro deps w₃ ⟨h,hdeps⟩
      obtain ⟨hsub,hall⟩ := hdeps deps rfl
      have h' := keeps_starting hr (bears_quietly hr (idles_enumerate E deps) (bare_enumerate deps)) w₃ h
      have hlist := fun herr m hm => (E.names.mem_order w₃.now.tick _ m).mpr (hall herr m hm)
      refine ⟨h',fun p hp => ?_⟩
      cases hp
      exact ⟨Starting.first h' hbuild hlist,fun m hm => hsub ((E.names.mem_order _ _ m).mp hm),hlist⟩
    · exact fun e w' hw => hend _ w' (by simp) hw.1
    · exact fun w' hw => hend _ w' (by simp) hw.1
  · exact fun e w' hw => hend _ w' (by simp) hw.1
  · exact fun w' hw => hend _ w' (by simp) hw.1

/-- Every answer is a sign of what it stands for. -/
theorem bringUpToDate_sign (hr : B.Rooted) (n : ℕ) (h : Called B w self) (hf : S.Facts w) :
    wp (bringUpToDate E n self) (S.Answer w self) w := by
  induction n generalizing self w with
  | zero => exact .ended hf (.refl B w) (.inr fun v hv => by cases hv)
  | succ n ih =>
    have hlt := h.knows.lt_next h.books
    apply wp_bringUpToDate E (fun l b w' => S.Sifting w self [self] l b w' ∧ ∀ m ∈ l, m ∈ B.origin.deps self)
      fun b w' => ∃ l, (B.Opened w self [self] w' ∨ B.Brought w self w' ∧ b.mustWait = true) ∧
        S.Sifted w self l b w' ∧ (b.mustWait = false → l = [])
    · intro hsettled
      have hown : ∀ s : Status, w.now.attr self "status" = s.toValue →
          w.now.rawget self "status" = s.toValue := fun s => hf.status_own hr h.books h.knows
      have hactive : Active w.now self → (∃ m, B.Target m self) ∧ ¬S.Sure self := fun ha =>
        ⟨(hf.touched self ha).2,fun hsure => by
          obtain ⟨i,hi⟩ := (hf.touched self ha).1
          exact hf.sure (self,i) hi hsure⟩
      rcases hsettled with hs | hs | hs
      · have ha := hactive (.inr (hown .updated hs))
        exact ⟨hf,.refl B w,(fun hn => by rw [hs] at hn; cases hn),fun _ => ⟨ha.1,hown .updated hs⟩,
          fun _ => ha.1,fun hsure => absurd hsure ha.2,fun v hv => ⟨.updated,(Outcome.ret.inj hv).symm.trans hs⟩⟩
      · have ha := hactive (.inl (hown .running hs))
        exact ⟨hf,.refl B w,(fun hn => by rw [hs] at hn; cases hn),(fun hn => by rw [hs] at hn; cases hn),
          fun _ => ha.1,fun hsure => absurd hsure ha.2,fun v hv => ⟨.running,(Outcome.ret.inj hv).symm.trans hs⟩⟩
      · exact .ended hf (.refl B w) (.inl (congrArg Outcome.ret hs))
    · intro hsettled
      apply wp_mono (visitStart_sign hr
        ⟨⟨.refl h.books self,h.room,h.books.accounts.unsettled hlt hsettled,by simpa using h.knows⟩,hf,.refl B w⟩)
      rintro (p | e | _) w' ⟨hopen,hp⟩
      · exact ⟨(hp p rfl).1,(hp p rfl).2.1⟩
      · exact .ended hopen.2.1 hopen.2.2 (.inr (by simp))
      · exact .ended hopen.2.1 hopen.2.2 (.inr (by simp))
    · rintro name l b w' ⟨hw',hl⟩
      have hstep := wp_and
        (depStep_answered (fun o w hc => bringUpToDate_answered n hc) h.books hlt hw'.1
          (hl name List.mem_cons_self))
        (depStep_sign hr (fun o w hc => bringUpToDate_answered n hc)
          (fun o w hc hf => ih hc hf) h.books hlt hw' (hl name List.mem_cons_self))
      apply wp_mono hstep
      rintro ((b' | b' | v) | e | _) w'' ⟨hst,hsign⟩
      · exact ⟨⟨hst,hsign⟩,fun m hm => hl m (List.mem_cons_of_mem _ hm)⟩
      · exact ⟨l,.inr ⟨hst.1,hst.2.1⟩,hsign.1,fun hw => by rw [hsign.2] at hw; cases hw⟩
      · exact .ended hsign.2.1 hsign.2.2 (.inl (congrArg Outcome.ret hsign.1))
      · exact .ended hsign.1 hsign.2 (.inr (by simp))
      · exact .ended hsign.1 hsign.2 (.inr (by simp))
    · exact fun b w' hw' => ⟨[],.inl hw'.1.1.1,hw'.1.2,fun _ => rfl⟩
    · rintro b w' ⟨l,ho,hs,hl⟩
      exact finishTargetUpdate_sign hr hlt ho hs hl

end Build.Signs
end Presto

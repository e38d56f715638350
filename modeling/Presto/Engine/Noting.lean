import Presto.Engine.Newer

/-! The calls of `bring_up_to_date` note every dependency that has been updated or is newer: the lists of
newer dependencies are right whenever a job starts, in every run. -/
namespace Presto
open Program Traced

namespace Build
variable {E : Env} {B : Build E} {w w' w₀ w₁ : World} {o self dep : ObjId} {ks : List ObjId} {m k name : String}
  {l : List String} {b : Pass} {α : Type}

/-- The lists are as they should be, and have only grown. -/
def Listing (B : Build E) (w₀ w : World) : Prop := B.Lists w ∧ Swells w₀ w

theorem Listing.step (h : B.Listing w₀ w) (ha : Aside w w') : B.Listing w₀ w' :=
  ⟨h.1.step ha,trans_of Swells h.2 (swells_of_aside ha)⟩

theorem keeps_listing {m : Engine α} (hm : Moves Aside m) : Keeps (B.Listing w₀) m := fun w h => h.step (hm w)

/-- What is found under a name is there. -/
def Found (B : Build E) (w : World) (o : ObjId) : Prop := (∀ m, B.Target m o → B.origin.Existing o) ∧
  ∀ m, B.Leads w m o → B.origin.registry m = .nil → B.origin.files.exists m

/-- How a call of `bring_up_to_date` leaves the lists. -/
def Listened (B : Build E) (w₀ : World) (o : ObjId) (r : Outcome Value Value) (w : World) : Prop :=
  B.Listing w₀ w ∧ (r = .ret Status.none.toValue → B.Found w₀ o)

theorem Listing.listened (h : B.Listing w₀ w) {r : Outcome Value Value} (hr : r ≠ .ret Status.none.toValue) :
    B.Listened w₀ o r w := ⟨h,fun he => absurd he hr⟩

/-- What is known of the dependency `name` when the next one is turned to. -/
def Noticed (B : Build E) (self : ObjId) (name : String) (b : Pass) : Outcome Value (Step Pass Value) → World → Prop
  | .ret (.next b'),w => b'.mustWait = false → b.mustWait = false ∧
      (w.now.rawget self "dep_status" ≠ Status.error.toValue → B.Weighed w self name)
  | _,_ => True

section
variable {hg : B.origin.FileGraph} {hr : B.Rooted} {hE : B.origin.Confined E}
  {hwatch : ∀ k ∈ Core.watched, k ∈ B.guarded}

/-- What has nothing to be done and is there. -/
theorem Found.filed (h : B.Found w₀ dep) (hl : B.Leads w₀ name dep)
    (hi : (B.freshSigns hg hr hE hwatch).Idle w₀ dep w) : B.Filed name := by
  refine ⟨h.2 name hl,fun p hp => ?_⟩
  rcases hl with ht | hn
  · obtain rfl := Value.obj.inj (ht.1.symm.trans hp.1)
    exact ⟨h.1 name hp,(hi.target name hp).1⟩
  · rw [hp.1] at hn
    cases hn.1

/-- A dependency that has nothing to be done is compared with the target. -/
theorem compareDep_lists (h : (B.freshSigns hg hr hE hwatch).Sifting w₀ self [self,dep] l b w)
    (hlist : B.Listing w₁ w) (hown : ∃ l, w.now.rawget self "deps_newer" = .names l)
    (hname : name ∈ B.origin.deps self) (hl : B.Leads w name dep) (hfiled : B.Filed name) :
    wp (compareDep E self dep name b) (fun r w' => B.Listing w₁ w' ∧ B.Noticed self name b r w') w := by
  obtain ⟨l,hraw⟩ := hown
  have hself : self ∈ [self,dep] := List.mem_cons_self
  have hb := h.1.1.books
  have hk := h.1.1.knows self hself
  obtain ⟨m,ht⟩ := Signs.Knows.target hk hname
  have hu : ¬Touched w dep := by
    rcases hl with hd | ⟨_,hle,_⟩
    · exact hlist.1.untouched h.2.facts hd (hfiled.2 dep hd).2
    · exact hb.untouched_later hr hle
  have haside : Moves Aside (do
      let s ← quietly (readTimestamp E self)
      let t ← quietly (readTimestamp E dep)
      lessThan s t) :=
    moves_bind (aside_quietly (aside_readCached (by decide) _ _)) fun s =>
      moves_bind (aside_quietly (aside_readCached (by decide) _ _)) fun t => aside_lessThan s t
  have hcmp := wp_and (Pristine.compare h.2.facts.inv hg hr hb ht (hb.untouched hr h.1.1.unsettled) hl) (haside.wp w)
  rw [Signs.compareDep_eq]
  apply wp_bind_of hcmp
  · rintro older w' ⟨⟨_,hless⟩,ha⟩
    obtain ⟨hold,hnew⟩ := hless hu
    have hlist' := hlist.step ha
    cases older with
    | false => exact ⟨hlist',fun hw => ⟨hw,fun _ => .inr ⟨hfiled,.inr (hold rfl)⟩⟩⟩
    | true =>
      have hraw' := (ha.newer self (hk.lt_next hb)).trans hraw
      have hmark := markNewer_lists hg hlist'.1 (hk.mono ha.next) hraw' hname
        (.inr fun hno => by cases hnew hno)
      apply wp_bind_of hmark
      · rintro _ w'' ⟨_,⟨h'',hs⟩,hlisted⟩
        exact ⟨⟨h'',trans_of Swells hlist'.2 hs⟩,fun hw => ⟨hw,fun _ => .inr ⟨hfiled,.inl hlisted⟩⟩⟩
      · exact fun e w'' hw => by cases hw.1
      · exact fun w'' hw => by cases hw.1
  · exact fun e w' hw => ⟨hlist.step hw.2,trivial⟩
  · exact fun w' hw => ⟨hlist.step hw.2,trivial⟩

/-- With `-k` a target remembers that a dependency has failed. -/
theorem failDep_failed (w : World) : wp (failDep E self dep name b) (fun r w' => ∀ b', r = .ret (.next b') →
    b' = b ∧ w'.now.rawget self "dep_status" = Status.error.toValue) w := by
  have htrue : ∀ {β : Type} {m : Engine β}, Keeps (fun _ : World => True) m := fun _ _ => trivial
  have hno : ∀ (o : Outcome Value (Step Pass Value)) (w' : World), (∀ x, o ≠ .ret x) → True →
      ∀ b', o = .ret (.next b') → b' = b ∧ w'.now.rawget self "dep_status" = Status.error.toValue :=
    fun o w' ho _ b' he => absurd he (ho _)
  unfold failDep
  rw [wp_bind_core]
  apply htrue.wp_bind trivial _ hno
  intro depName w₁ _
  apply htrue.wp_bind trivial _ hno
  intro _ w₁ _
  apply htrue.wp_bind trivial _ hno
  intro _ w₁ _
  rw [wp_ite]
  split_ifs
  · apply htrue.wp_bind trivial _ hno
    intro _ w₁ _
    rw [wp_bind_setField]
    rintro _ ⟨rfl⟩
    exact ⟨rfl,by simp⟩
  · apply htrue.wp_bind trivial _ hno
    exact fun _ _ _ _ hb => by cases hb

/-- The status of a dependency is used. -/
theorem useDep_lists {r : Except Value Value} (hv : B.Visited w₀ self dep r w') (hwait : B.Waiting b w')
    (hs : (B.freshSigns hg hr hE hwatch).Sifted w₀ self l b w') (hname : name ∈ B.origin.deps self)
    (hl : B.Leads w name dep ∨ dep = mtTable) (ha : B.Along w w')
    (hans : ∀ v, r = .ok v → (B.freshSigns hg hr hE hwatch).Answer w dep (.ret v) w' ∧ B.Knows w dep)
    (hlist : B.Listing w₁ w') (hown : ∃ l, w'.now.rawget self "deps_newer" = .names l)
    (hfound : r = .ok Status.none.toValue → B.Found w dep) :
    wp (useDep E self dep name b (depStatus r)) (fun x w'' => B.Listing w₁ w'' ∧ B.Noticed self name b x w'') w' := by
  have hlead : ∀ v, r = .ok v → B.Leads w name dep := fun v hv =>
    hl.resolve_right (Signs.Knows.ne_mt (hans v hv).2)
  unfold useDep
  rw [wp_ite,wp_ite,wp_ite,wp_ite]
  split_ifs with hu hn he hrun
  · have hr' := depStatus_ok (s := .updated) (by simp) hu
    obtain ⟨⟨m,ht⟩,hstatus⟩ := (hans _ hr').1.updated rfl
    have hreg : B.Target name dep := by
      rcases hlead _ hr' with h | ⟨_,hle,_⟩
      · exact h
      · exact absurd ht.lt (not_lt.mpr hle)
    have htouch := ((hans _ hr').1.facts.touched dep (.inr hstatus)).1
    obtain ⟨l',hraw⟩ := hown
    apply wp_bind_of (markNewer_lists hg hlist.1 hv.knows hraw hname (.inl ⟨dep,hreg,htouch⟩))
    · rintro _ w'' ⟨_,⟨h'',hsw⟩,hlisted⟩
      exact ⟨⟨h'',trans_of Swells hlist.2 hsw⟩,fun hw =>
        ⟨hw,fun _ => .inl ⟨hlisted,dep,hreg,htouch.mono hsw.emits⟩⟩⟩
    · exact fun e w'' hw => by cases hw.1
    · exact fun w'' hw => by cases hw.1
  · have hr' := depStatus_ok (s := .none) (by simp) hn
    have hidle := (hans _ hr').1.none rfl
    have hlead := hlead _ hr'
    have ho := hv.opened (hv.room.resolve_right fun he => by rw [hr'] at he; cases he)
    have hk : B.Knows w' dep := hv.known.resolve_right fun ⟨e,he⟩ => by rw [he] at hr'; cases hr'
    refine compareDep_lists ⟨⟨⟨ho.toBrought,ho.room,ho.unsettled,fun p hp => ?_⟩,hwait⟩,hs⟩ hlist hown hname
      (Signs.Leads.along hr hlead ha) ((hfound hr').filed hlead hidle)
    rcases List.mem_pair.mp hp with rfl | rfl
    · exact hv.knows
    · exact hk
  · apply wp_mono (wp_and ((keeps_listing (aside_failDep self dep name b)).wp hlist) (failDep_failed w'))
    rintro ((b' | b' | v) | e | _) w'' ⟨hlist',hfail⟩
    · obtain ⟨rfl,herr⟩ := hfail b' rfl
      exact ⟨hlist',fun hw => ⟨hw,fun hno => absurd herr hno⟩⟩
    all_goals exact ⟨hlist',trivial⟩
  · rw [wp_bind_core,wp_ite]
    split_ifs
    · exact ⟨hlist,trivial⟩
    · exact ⟨hlist,fun hw => by cases hw⟩
  · apply (keeps_listing (aside_concatText _)).wp_bind hlist
    · exact fun _ _ h => ⟨h,trivial⟩
    · rintro (x | e | _) w'' ho h
      · exact absurd rfl (ho x)
      · exact ⟨h,trivial⟩
      · exact ⟨h,trivial⟩

/-- A dependency is asked for. -/
theorem visit_lists {bring : ObjId → Engine Value}
    (hbring : ∀ o w, Called B w o → (B.freshSigns hg hr hE hwatch).Facts w → B.Lists w →
      wp (bring o) (B.Listened w o) w) (hb : B.Books w) (hroom : w.now.count < E.slots)
    (hf : (B.freshSigns hg hr hE hwatch).Facts w) (hlist : B.Lists w) (hdep : B.Knows w dep ∨ dep = mtTable) :
    wp (visit E bring dep) (fun r w' => B.Listing w w' ∧
      (r = .ret (.ok Status.none.toValue) → B.Found w dep)) w := by
  have hcall : wp (callBring E bring dep) (B.Listened w dep) w := by
    rcases hdep with hk | rfl
    · unfold callBring
      rw [wp_bind_core,method_of_knows hb.toLedger hk hr.method]
      exact hbring dep w ⟨hb,hk,hroom⟩ hf hlist
    · apply wp_mono (callBring_mt bring hb)
      rintro r w' ⟨⟨e,rfl⟩,rfl⟩
      exact ⟨⟨hlist,refl_of Swells _⟩,fun h => by cases h⟩
  apply wp_visit E hcall
  · rintro v w' ⟨hw,hfound⟩
    exact ⟨hw,fun h => hfound (by rw [Except.ok.inj (Outcome.ret.inj h)])⟩
  · rintro e w' ⟨hw,_⟩
    exact ⟨keeps_listing (aside_emit id) w' hw,fun h => by cases h⟩
  · rintro w' ⟨hw,_⟩
    exact ⟨hw,fun h => by cases h⟩

/-- What is known of the lists after some of the dependencies; `l` are those that are still to come. -/
structure Noting (B : Build E) (w₁ : World) (o : ObjId) (l : List String) (b : Pass) (w : World) : Prop where
  listing : B.Listing w₁ w
  own : ∀ m, B.Target m o → ∃ l, w.now.rawget o "deps_newer" = .names l
  weighed : b.mustWait = false → w.now.rawget o "dep_status" ≠ Status.error.toValue →
    ∀ n ∈ B.origin.deps o, n ∉ l → B.Weighed w o n

theorem Noting.next {b' : Pass} (h : B.Noting w₁ self (name::l) b w) (hlt : self < w.now.next)
    (hlist : B.Listing w w') (hn : B.Noticed self name b (.ret (.next b')) w') : B.Noting w₁ self l b' w' where
  listing := ⟨hlist.1,trans_of Swells h.listing.2 hlist.2⟩
  own m ht := by
    obtain ⟨l,hl⟩ := h.own m ht
    obtain ⟨l',hl',_⟩ := hlist.2.newer self hlt l hl
    exact ⟨l',hl'⟩
  weighed hw herr n hn' hl := by
    obtain ⟨hwait,hweighed⟩ := hn hw
    by_cases he : n = name
    · subst he
      exact hweighed herr
    · exact (h.weighed hwait (fun hf => herr (hlist.2.failed self hlt hf)) n hn' (by simp [he,hl])).swells hlt hlist.2

theorem depStep_lists {bring : ObjId → Engine Value}
    (hold : ∀ o w, Called B w o → wp (bring o) (B.Answered w o) w)
    (hsign : ∀ o w, Called B w o → (B.freshSigns hg hr hE hwatch).Facts w →
      wp (bring o) ((B.freshSigns hg hr hE hwatch).Answer w o) w)
    (hbring : ∀ o w, Called B w o → (B.freshSigns hg hr hE hwatch).Facts w → B.Lists w →
      wp (bring o) (B.Listened w o) w) (hb : B.Books w₀)
    (hlt : self < w₀.now.next) (h : (B.freshSigns hg hr hE hwatch).Sifting w₀ self [self] (name::l) b w)
    (hn : B.Noting w₁ self (name::l) b w) (hname : name ∈ B.origin.deps self) :
    wp (depStep E bring self name b) (fun x w' => B.Listing w₁ w' ∧
      ∀ b', x = .ret (.next b') → B.Noting w₁ self l b' w') w := by
  have hself : self ∈ [self] := List.mem_cons_self
  have hlt' := h.1.1.lt_next hself
  obtain ⟨m,ht⟩ := Signs.Knows.target (h.1.1.knows self hself) hname
  have hstart : B.Listing w w := ⟨hn.listing.1,refl_of Swells w⟩
  have hfinal : ∀ {m : Engine (Step Pass Value)} {w₂ : World},
      wp m (fun x w' => B.Listing w w' ∧ B.Noticed self name b x w') w₂ →
      wp m (fun x w' => B.Listing w₁ w' ∧ ∀ b', x = .ret (.next b') → B.Noting w₁ self l b' w') w₂ := by
    intro m w₂ hm
    apply wp_mono hm
    rintro x w' ⟨hlist,hx⟩
    refine ⟨⟨hlist.1,trans_of Swells hn.listing.2 hlist.2⟩,?_⟩
    rintro b' rfl
    exact hn.next hlt' hlist hx
  have hlook : Moves (Signs.Bears (B.freshSigns hg hr hE hwatch) [self]) (quietly (targetIndex name) : Engine Value) :=
    Signs.bears_quietly hr (idles_targetIndex name) (Signs.bare_targetIndex name)
  have hs := Signs.keeps_sifting hr hlook hself w h
  have hlist := keeps_listing (aside_quietly (aside_targetIndex name)) w hstart
  apply hfinal
  apply wp_lookup
  · intro dep c hrun
    rw [quietly_ret hrun] at hs hlist
    have hl := Signs.lookup_leads h.1.1.books hrun
    have hknown := hl.imp_left Signs.Leads.knows
    have hvisit := wp_and (wp_and (visit_answered hold hb hlt hs.1.1 hs.1.2 (h.1.1.depends hname hrun))
      (Signs.visit_sign hr hsign hs.1.1.books hs.1.1.room hs.2.facts hknown))
      (visit_lists hbring hs.1.1.books hs.1.1.room hs.2.facts hlist.1 hknown)
    have hsift : ∀ {w'}, (B.freshSigns hg hr hE hwatch).Facts w' → B.Along { w with now := c } w' →
        (B.freshSigns hg hr hE hwatch).Sifted w₀ self (name::l) b w' := fun hf ha =>
      hs.2.step hs.1.1.books (hs.1.1.lt_next hself) hf ha
    obtain ⟨l',hown⟩ := hn.own m ht
    apply wp_bind_of hvisit
    · rintro r w' ⟨⟨⟨hv,hwait⟩,hans⟩,hlist',hfound⟩
      have hlisting : B.Listing w w' := ⟨hlist'.1,trans_of Swells hlist.2 hlist'.2⟩
      have hown' : ∃ l, w'.now.rawget self "deps_newer" = .names l := by
        obtain ⟨l'',hl'',_⟩ := hlisting.2.newer self hlt' l' hown
        exact ⟨l'',hl''⟩
      have hfound' : r = .ok Status.none.toValue → B.Found { w with now := c } dep := fun he => hfound (by rw [he])
      cases r with
      | error e =>
        exact useDep_lists hv hwait (hsift hans.1 hans.2) hname hl hans.2 (fun v hv => by cases hv)
          hlisting hown' hfound'
      | ok v =>
        refine useDep_lists hv hwait (hsift hans.1.facts hans.1.along) hname hl hans.1.along ?_
          hlisting hown' hfound'
        rintro _ ⟨rfl⟩
        exact hans
    · exact fun _ _ hw => ⟨⟨hw.2.1.1,trans_of Swells hlist.2 hw.2.1.2⟩,trivial⟩
    · exact fun _ hw => ⟨⟨hw.2.1.1,trans_of Swells hlist.2 hw.2.1.2⟩,trivial⟩
  · exact fun e => ⟨hlist,trivial⟩

/-- A job is started with a list that is right. -/
theorem jobsStart_lists (h : B.Listing w₁ w) (hcommand : (B.origin.attr o "command").truthy)
    (hexact : w.now.ListsNewer o ↔ w.now.Existing o ∨
      ∀ k ∈ w.now.deps o, w.now.Updated k ∨ w.now.AfterLaunch k) :
    wp (jobsStart E o) (fun _ w' => B.Listing w₁ w') w := by
  have hstart : Emits (fun _ => True) w (launched w o) :=
    ⟨[(.start o w.now.nextJob.pos,w.now.nextJob)],rfl,by simp⟩
  have hswells : Swells w (launched w o) :=
    ⟨le_rfl,fun _ _ l hl => ⟨l,hl,subset_rfl⟩,fun _ _ => id,hstart⟩
  have hlist : B.Listing w₁ (launched w o) := by
    refine ⟨⟨h.1.next,h.1.phony,fun m q ht => ?_,fun x hx => ?_⟩,trans_of Swells h.2 hswells⟩
    · refine (h.1.own m q ht).imp_right ?_
      rintro ⟨l,hl,hall⟩
      refine ⟨l,hl,fun k hk => ⟨(hall k hk).1,(hall k hk).2.imp_left ?_⟩⟩
      exact fun ⟨p,hp,htouch⟩ => ⟨p,hp,htouch.mono hstart⟩
    · rcases List.mem_cons.mp hx with rfl | hx
      · rintro q i ⟨rfl⟩
        exact ⟨hcommand,hexact⟩
      · exact h.1.starts x hx
  unfold Presto.jobsStart
  rw [wp_bind_modify_quietly,wp_bind_core,wp_bind_emit]
  split
  · exact (keeps_listing (moves_ite (moves_raise _) (aside_startJob _ _ _ _))).wp hlist
  · exact hlist

theorem noRule_lists (h : B.Listing w₁ w) : wp (noRule self) (B.Listened w₁ self) w := by
  have hend : ∀ (r : Outcome Value Value) w, (∀ x, r ≠ .ret x) → B.Listing w₁ w → B.Listened w₁ self r w :=
    fun r w hr h => h.listened (hr _)
  unfold noRule
  apply (keeps_listing (aside_markError self)).wp_bind h _ hend
  intro _ w h
  rw [wp_bind_core]
  apply (keeps_listing (aside_concatText _)).wp_bind h _ hend
  intro name w h
  apply (keeps_listing (aside_setField (by decide))).wp_bind h _ hend
  exact fun _ w h => hend _ _ (by simp) h

/-- What follows the loop over the dependencies. -/
theorem finishTargetUpdate_lists (h : B.Opened w₀ self [self] w ∨ B.Brought w₀ self w ∧ b.mustWait = true)
    (hs : (B.freshSigns hg hr hE hwatch).Sifted w₀ self l b w) (hl : b.mustWait = false → l = [])
    (hlist : B.Listing w₀ w) (hn : b.mustWait = false → B.Noting w₀ self [] b w) : wp (finishTargetUpdate E self b) (B.Listened w₀ self) w := by
  have hself : self ∈ [self] := List.mem_cons_self
  have hopen : b.mustWait ≠ true → B.Opened w₀ self [self] w := fun hne => h.resolve_right fun hw => hne hw.2
  have hraw : w.now.attr self "dep_status" ≠ Status.error.toValue →
      w.now.rawget self "dep_status" ≠ Status.error.toValue := fun hne he => hne <| by
    rw [Core.attr_eq_rawget (by rw [he]; exact toValue_ne_nil _),he]
  unfold finishTargetUpdate
  rw [wp_bind_core,wp_ite,wp_ite,wp_ite,wp_ite,wp_ite]
  split_ifs with hw hd hm hq hc
  · exact hlist.listened (by simp [Status.toValue])
  · refine ⟨keeps_listing (aside_markError self) w hlist,fun he => ?_⟩
    have hv : (w.now.rawset self "status" Status.error.toValue).attr self "status" =
        Status.error.toValue := attr_status_rawset w.now self .error
    cases hv.symm.trans (Outcome.ret.inj he)
  · exact hlist.listened (by simp)
  · have ho := hopen hw
    have hwait : b.mustWait = false := by simpa using hw
    have hk := ho.knows self hself
    obtain ⟨f,hf,_⟩ := hk.callable ho.books.toLedger hr.commands hc
    obtain ⟨m,ht⟩ := hk.registered_of_command ho.books.toLedger hf
    obtain ⟨l',hown⟩ := (hn hwait).own m ht
    have hexact := hlist.1.exact hs.facts ho.books ht ho.unsettled
      ((hs.facts.pruned m self ht).resolve_right (hraw hd)) hown
      (fun n hmem => (hs.deps hwait (hraw hd) n hmem (by rw [hl hwait]; simp)).1)
      (fun n hmem => (hn hwait).weighed hwait (hraw hd) n hmem (by simp))
    have hcommand : (B.origin.attr self "command").truthy := by
      rw [← Signs.Ledger.attr_command ho.books.toLedger hr ht]
      exact hc
    apply wp_mono (wp_and (jobsStart_books ho.books hk ho.unsettled ho.room hc)
      (jobsStart_lists hlist hcommand hexact))
    rintro r w' ⟨hstarted,hlist⟩
    exact hlist.listened (hstarted.ne_none ((hk.lt_next ho.books).trans_le hstarted.next))
  · have ho := hopen hw
    have hfound : wp (unbuildable E self) (fun r w' => r = .ret false → B.Found w self) w := by
      unfold unbuildable
      rw [wp_ite]
      split_ifs
      · exact wp_mono (Pristine.absent hs.facts.inv hg hr ho.books (ho.knows self hself)
          (ho.books.untouched hr ho.unsettled)) fun _ _ hw => hw.2.1
      · exact fun he => by cases he
    apply wp_bind_of (wp_and ((keeps_listing (aside_unbuildable self)).wp hlist) hfound)
    · rintro (_ | _) w' ⟨hlist,hfound⟩
      · obtain ⟨htarget,hsource⟩ := hfound rfl
        exact ⟨hlist,fun _ => ⟨htarget,fun m hlead => hsource m (Signs.Leads.along hr hlead hs.along)⟩⟩
      · exact noRule_lists hlist
    · exact fun e w' hw => hw.1.listened (by simp)
    · exact fun w' hw => hw.1.listened (by simp)
  · obtain ⟨_,hpresent,hsource⟩ := hs.present (by simpa using hm)
    exact ⟨hlist,fun _ => ⟨hpresent,hsource⟩⟩

/-- The target gets its list, and the rest leaves the lists alone. -/
theorem visitStart_lists (hg : B.origin.FileGraph) (hb : B.Books w) (hk : B.Knows w self) (hlist : B.Lists w) :
    wp (visitStart E self) (fun _ w' => B.Listing w w' ∧
      ∀ m, B.Target m self → ∃ l, w'.now.rawget self "deps_newer" = .names l) w := by
  unfold visitStart
  apply wp_bind_of (ensureDepsNewer_lists hg hlist hb hk)
  · rintro _ w₁ ⟨hlist₁,hown⟩
    have haside : Moves Aside (missing E self >>= fun mustBuild => quietly (readDeps self) >>= fun deps =>
        quietly (enumerate E deps) >>= fun order => (pure (mustBuild,order) : Engine (Bool × List String))) :=
      moves_bind (aside_missing self) fun _ => moves_bind (aside_quietly (aside_readDeps self)) fun _ =>
        moves_bind (aside_quietly (aside_enumerate _)) fun _ => moves_pure _
    apply wp_mono (haside.wp w₁)
    refine fun _ w' ha => ⟨Listing.step hlist₁ ha,fun m ht => ?_⟩
    obtain ⟨l,hl⟩ := hown m ht
    exact ⟨l,(ha.newer self ((hk.lt_next hb).trans_le hlist₁.2.next)).trans hl⟩
  · exact fun e w' hw => hw
  · exact fun w' hw => hw

/-- Every call of `bring_up_to_date` keeps the lists right. -/
theorem bringUpToDate_lists (n : ℕ) (h : Called B w self) (hf : (B.freshSigns hg hr hE hwatch).Facts w)
    (hlist : B.Lists w) : wp (bringUpToDate E n self) (B.Listened w self) w := by
  induction n generalizing self w with
  | zero => exact Listing.listened ⟨hlist,refl_of Swells w⟩ fun he => by cases he
  | succ n ih =>
    have hlt := h.knows.lt_next h.books
    apply wp_bringUpToDate E (fun l b w' => (Signs.Sifting (B.freshSigns hg hr hE hwatch) w self [self] l b w' ∧
        B.Noting w self l b w') ∧ ∀ m ∈ l, m ∈ B.origin.deps self)
      fun b w' => ∃ l, (B.Opened w self [self] w' ∨ B.Brought w self w' ∧ b.mustWait = true) ∧
        Signs.Sifted (B.freshSigns hg hr hE hwatch) w self l b w' ∧ (b.mustWait = false → l = []) ∧
        B.Listing w w' ∧ (b.mustWait = false → B.Noting w self [] b w')
    · intro hsettled
      refine Listing.listened ⟨hlist,refl_of Swells w⟩ fun he => ?_
      have he := Outcome.ret.inj he
      unfold Core.settled at hsettled
      rw [he] at hsettled
      rcases hsettled with hs | hs | hs <;> cases hs
    · intro hsettled
      have hopen : Signs.Starting (B.freshSigns hg hr hE hwatch) w self w :=
        ⟨⟨.refl h.books self,h.room,h.books.accounts.unsettled hlt hsettled,by simpa using h.knows⟩,hf,.refl B w⟩
      apply wp_mono (wp_and (Signs.visitStart_sign hr hopen) (visitStart_lists hg h.books h.knows hlist))
      rintro (p | e | _) w' ⟨⟨_,hp⟩,hlist',hown⟩
      · obtain ⟨hfirst,hsub,hall⟩ := hp p rfl
        refine ⟨⟨hfirst,hlist',hown,fun _ herr m hm hl => ?_⟩,hsub⟩
        exact absurd (hall herr m hm) hl
      · exact hlist'.listened (by simp)
      · exact hlist'.listened (by simp)
    · rintro name l b w' ⟨⟨hw',hn⟩,hl⟩
      have hname := hl name List.mem_cons_self
      have hold : ∀ o w, Called B w o → wp (bringUpToDate E n o) (B.Answered w o) w :=
        fun o w hc => bringUpToDate_answered n hc
      have hsign : ∀ o w, Called B w o → (B.freshSigns hg hr hE hwatch).Facts w →
          wp (bringUpToDate E n o) ((B.freshSigns hg hr hE hwatch).Answer w o) w :=
        fun o w hc hf => Signs.bringUpToDate_sign hr n hc hf
      have hstep := wp_and (wp_and (depStep_answered hold h.books hlt hw'.1 hname)
        (Signs.depStep_sign hr hold hsign h.books hlt hw' hname))
        (depStep_lists hold hsign (fun o w hc hf hlist => ih hc hf hlist) h.books hlt hw' hn hname)
      apply wp_mono hstep
      rintro ((b' | b' | v) | e | _) w'' ⟨⟨hst,hs⟩,hlist',hnext⟩
      · exact ⟨⟨⟨hst,hs⟩,hnext b' rfl⟩,fun m hm => hl m (List.mem_cons_of_mem _ hm)⟩
      · have hno : b'.mustWait ≠ false := by rw [hs.2]; simp
        exact ⟨l,.inr ⟨hst.1,hst.2.1⟩,hs.1,fun hw => absurd hw hno,hlist',fun hw => absurd hw hno⟩
      · exact hlist'.listened fun he => by rw [hs.1] at he; cases he
      · exact hlist'.listened (by simp)
      · exact hlist'.listened (by simp)
    · exact fun b w' hw' => ⟨[],.inl hw'.1.1.1.1,hw'.1.1.2,fun _ => rfl,hw'.1.2.listing,fun _ => hw'.1.2⟩
    · rintro b w' ⟨l,ho,hs,hl,hlist',hn⟩
      exact finishTargetUpdate_lists ho hs hl hlist' hn

end
end Build
end Presto

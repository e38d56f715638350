import Presto.Engine.Fresh

/-! A target that is up to date, with all that it leads to, answers `none` and is left alone. -/
namespace Presto
open Program Traced

namespace Core
variable (c : Core)

/-- `target[n]` finds a table. -/
def Findable (n : String) : Prop := ¬(n = "defined" ∧ c.defined ≠ .nil) ∧ hasBackslash n = false

/-- The name and all that it leads to are up to date. -/
inductive UpToDate : String → Prop
  | source {n : String} : c.Findable n → c.registry n = .nil → c.files.exists n → UpToDate n
  | target {n : String} {o : ObjId} : c.Findable n → c.registry n = .obj o → (c.heap o).isTarget →
    c.Existing o → (∀ k ∈ c.deps o, c.NotOlder o k) → (∀ k ∈ c.deps o, UpToDate k) → UpToDate n

/-- Nothing has changed but the fields that note what has been read. -/
structure Noted (c c' : Core) : Prop where
  next : c.next ≤ c'.next
  raw : ∀ o < c.next, ∀ k, k ∉ ["deps_newer","exists","timestamp"] → c'.rawget o k = c.rawget o k
  goals : c'.goals = c.goals
  failure : c'.failure = c.failure
  unlink : c'.deleteOnError = c.deleteOnError

instance : IsPreorder Core Noted where
  refl _ := ⟨le_rfl,fun _ _ _ _ => rfl,rfl,rfl,rfl⟩
  trans _ _ _ h h' := ⟨h.next.trans h'.next,
    fun o ho k hk => (h'.raw o (ho.trans_le h.next) k hk).trans (h.raw o ho k hk),
    h'.goals.trans h.goals,h'.failure.trans h.failure,h'.unlink.trans h.unlink⟩

variable {c}

theorem noted_rawset {o : ObjId} {key : String} {v : Value} (hk : key ∈ ["deps_newer","exists","timestamp"]) :
    c.Noted (c.rawset o key v) := by
  refine ⟨le_rfl,fun p _ k hne => ?_,rfl,rfl,rfl⟩
  rw [rawget_rawset,if_neg]
  rintro ⟨_,rfl⟩
  exact hne hk

theorem noted_alloc (x : Obj) : c.Noted (c.alloc x) := by
  refine ⟨Nat.le_succ _,fun p hp k _ => ?_,rfl,rfl,rfl⟩
  rw [rawget,c.heap_alloc_of_lt _ hp]
  rfl

theorem noted_readCached {E : Env} {key : String} (hk : key ∈ ["deps_newer","exists","timestamp"])
    (getter : String) (o : ObjId) : Moves Noted (readCached E key getter o) := by
  unfold readCached
  refine moves_bind (moves_gets id) fun c => ?_
  split
  · exact moves_pure _
  · refine moves_ite (moves_bind (fun c' => ?_) fun v => moves_bind ?_ fun _ => moves_pure _) (moves_pure _)
    · rw [callGetter_state]
      exact refl_of Noted c'
    · exact moves_modify fun c' => noted_rawset hk

end Core

/-- There is no event, and nothing has changed but what notes what has been read. -/
def Notes (w w' : World) : Prop := w'.trace = w.trace ∧ w.now.Noted w'.now

instance : IsPreorder World Notes where
  refl w := ⟨rfl,refl_of Core.Noted w.now⟩
  trans _ _ _ h h' := ⟨h'.1.trans h.1,trans_of Core.Noted h.2 h'.2⟩

theorem notes_quietly {α : Type} {m : Lua α} (h : Moves Core.Noted m) : Moves Notes (quietly m) :=
  fun w => ⟨rfl,h w.now⟩

namespace Build
variable {E : Env} {B : Build E} {w w' w'' : World} {o p : ObjId} {m n : String}

/-- A step that only notes what has been read. -/
structure Hushed (B : Build E) (w w' : World) : Prop where
  books : B.Books w'
  pristine : B.Pristine w'
  idles : w.now.Idles B.guarded w'.now
  notes : Notes w w'

theorem Hushed.refl (hb : B.Books w) (hp : B.Pristine w) : B.Hushed w w :=
  ⟨hb,hp,.refl _ _,refl_of Notes w⟩

theorem Hushed.trans (h : B.Hushed w w') (h' : B.Hushed w' w'') : B.Hushed w w'' :=
  ⟨h'.books,h'.pristine,h.idles.trans h'.idles,trans_of Notes h.notes h'.notes⟩

theorem hushed_of {α : Type} {ks : List ObjId} {m : Engine α} (hb : B.Books w) (hks : ∀ o ∈ ks, B.Knows w o)
    (hrests : Moves (B.Rests ks) m) (hnotes : Moves Notes m) (hp : B.Pristine (m w).2) :
    B.Hushed w (m w).2 :=
  ⟨(hrests w hb hks).1,hp,(hrests w hb hks).2,hnotes w⟩

/-- Nothing has been done about the target. -/
structure Undone (B : Build E) (w : World) (o : ObjId) : Prop where
  status : w.now.rawget o "status" = .nil
  failed : w.now.rawget o "dep_status" = .nil
  deps : w.now.rawget o "deps" = .names (B.origin.deps o)

/-- Nothing has been done about the targets that are up to date. -/
structure Quiet (B : Build E) (w : World) : Prop where
  books : B.Books w
  pristine : B.Pristine w
  calm : ∀ m o, B.Target m o → B.origin.UpToDate m → B.Undone w o

theorem Undone.move (h : B.Undone w o) (ho : o < w.now.next) (hh : B.Hushed w w') : B.Undone w' o :=
  ⟨(hh.notes.2.raw o ho _ (by decide)).trans h.status,(hh.notes.2.raw o ho _ (by decide)).trans h.failed,
    (hh.notes.2.raw o ho _ (by decide)).trans h.deps⟩

theorem Quiet.move (h : B.Quiet w) (hh : B.Hushed w w') : B.Quiet w' :=
  ⟨hh.books,hh.pristine,fun m o ht hu => (h.calm m o ht hu).move (ht.lt.trans_le h.books.stays.next) hh⟩

theorem Hushed.leads (hh : B.Hushed w w') (hl : B.Leads w m o) : B.Leads w' m o := by
  rcases hl with ht | ⟨hnil,hle,hlt,hn⟩
  · exact .inl ht
  · exact .inr ⟨hnil,hle,hlt.trans_le hh.idles.next,(hh.notes.2.raw o hlt _ (by decide)).trans hn⟩

/-- An up-to-date name is looked up. -/
theorem Quiet.lookup (h : B.Quiet w) (hr : B.Rooted)
    (hwatch : ∀ k ∈ Core.watched, k ∈ B.guarded) (hu : B.origin.UpToDate n) :
    ∃ o c, targetIndex n w.now = (.ret (.obj o),c) ∧ B.Hushed w { w with now := c } ∧
      B.Leads { w with now := c } n o ∧ B.Undone { w with now := c } o := by
  have hfind : w.now.Findable n := by
    have hf : B.origin.Findable n := by cases hu <;> assumption
    unfold Core.Findable at hf ⊢
    rwa [h.books.stays.defined]
  have hb := h.books
  rcases targetIndex_cases n w.now with ⟨hd,hne,_⟩ | ⟨_,hs,_⟩ | ⟨_,_,hne,he⟩ | ⟨_,_,hnil,he⟩
  · exact absurd ⟨hd,hne⟩ hfind.1
  · rw [hfind.2] at hs
    cases hs
  · rw [hb.registry] at hne
    cases hu with
    | source _ hnil _ => exact absurd hnil hne
    | @target _ o hf hreg ht hex hno hdeps =>
      rw [hb.registry,hreg] at he
      exact ⟨o,w.now,he,.refl hb h.pristine,.inl ⟨hreg,ht⟩,
        h.calm n o ⟨hreg,ht⟩ (.target hf hreg ht hex hno hdeps)⟩
  · refine ⟨w.now.next,_,he,?_,?_,?_⟩
    · have hrests : Moves (B.Rests []) (quietly (targetIndex n) : Engine Value) := rests_quietly (idles_targetIndex n)
      have hbooks := hrests w hb (by simp)
      have hbare : w.now.Bare B.guarded
          (w.now.alloc (w.now.instance none (Function.update noFields "name" (.str n)))) := Core.bare_alloc _ _
      have hst : w.now.Idles B.guarded
          (w.now.alloc (w.now.instance none (Function.update noFields "name" (.str n)))) := Core.idles_alloc _ _
      have hq : (quietly (targetIndex n) : Engine Value) w = (.ret (.obj w.now.next),{ w with
          now := w.now.alloc (w.now.instance none (Function.update noFields "name" (.str n))) }) := quietly_ret he
      rw [hq] at hbooks
      exact ⟨hbooks.1,h.pristine.sees hr hwatch hb.toLedger hst.toStays hbare.sees,hst,rfl,Core.noted_alloc _⟩
    · refine .inr ⟨by rw [← hb.registry]; exact hnil,hb.stays.next,Nat.lt_succ_self _,?_⟩
      simp [Core.rawget,Core.instance]
    · have hdeps : B.origin.deps w.now.next = ∅ := by
        simp [Core.deps,Core.rawget,B.ready.sound.fresh _ hb.stays.next,noFields]
      refine ⟨?_,?_,?_⟩
      · simp [Core.rawget,Core.instance,noFields]
      · simp [Core.rawget,Core.instance,noFields]
      · rw [hdeps]
        simp [Core.rawget,Core.instance]

/-- A field of an engine table is read where no class has it. -/
theorem attr_nil (hg : B.origin.FileGraph) (hb : B.Books w) (hk : B.Knows w o) (hp : ¬B.origin.IsPhony o)
    {k : String} (hreg : protectedMember k = .nil) (hnil : w.now.rawget o k = .nil) (s : Status) :
    w.now.attr o k ≠ s.toValue := by
  obtain ⟨_,⟨hc,_⟩ | ⟨_,hph,_⟩⟩ := knows_chain hg hb hk
  · have hnone : w.now.holder o k = none := by simp [Core.holder,hc,hnil]
    simp only [Core.attr,hnone,hb.registry]
    rcases B.ready.sound.bound k hreg with hn | ⟨q,hq,_⟩
    · rw [hn]
      split_ifs
      all_goals exact (toValue_ne_nil s).symm
    · rw [hq]
      split_ifs
      all_goals cases s <;> simp [Status.toValue]
  · exact absurd hph hp

theorem UpToDate.plain (hu : B.origin.UpToDate m) (hl : B.Leads w m o) : ¬B.origin.IsPhony o := by
  rcases hl with ht | ⟨_,hle,_⟩
  · cases hu with
    | source _ hnil _ =>
      rw [ht.1] at hnil
      cases hnil
    | target _ hreg _ hex _ _ =>
      obtain rfl := Value.obj.inj (ht.1.symm.trans hreg)
      exact hex.1
  · simp [Core.IsPhony,B.ready.sound.fresh o hle]

/-- What is known of a target that is up to date. -/
theorem UpToDate.deps (hu : B.origin.UpToDate m) (hl : B.Leads w m o) (hn : n ∈ B.origin.deps o) :
    B.Target m o ∧ B.origin.NotOlder o n ∧ B.origin.UpToDate n := by
  rcases hl with ht | ⟨_,hle,_⟩
  · cases hu with
    | source _ hnil _ =>
      rw [ht.1] at hnil
      cases hnil
    | target _ hreg _ _ hno hdeps =>
      obtain rfl := Value.obj.inj (ht.1.symm.trans hreg)
      exact ⟨ht,hno n hn,hdeps n hn⟩
  · have hdeps : B.origin.deps o = ∅ := by
      simp [Core.deps,Core.rawget,B.ready.sound.fresh o hle,noFields]
    rw [hdeps] at hn
    cases hn

/-- The room that is needed for a dependency. -/
theorem height_leads (hl : B.Leads w n p) (ht : B.Target m o) (hn : n ∈ B.origin.deps o) :
    height B.origin.Feeds (Finset.range B.origin.next) p <
      height B.origin.Feeds (Finset.range B.origin.next) o := by
  classical
  have ho : o ∈ Finset.range B.origin.next := Finset.mem_range.mpr ht.lt
  rcases hl with hp | ⟨_,hle,_⟩
  · exact B.ready.acyclic.height_lt ho ⟨n,hn,hp.1⟩
  · have hnone : ∀ q, ¬B.origin.Feeds p q := by
      rintro q ⟨k,hk,_⟩
      simp [Core.deps,Core.rawget,B.ready.sound.fresh p hle,noFields] at hk
    have hzero : height B.origin.Feeds (Finset.range B.origin.next) p = 0 := by
      rw [height,Finset.card_eq_zero,Finset.filter_eq_empty_iff]
      intro q hq hreach
      rcases Relation.ReflTransGen.cases_head hreach with rfl | ⟨q',hq',_⟩
      · exact absurd (Finset.mem_range.mp hq) (not_lt.mpr hle)
      · exact hnone q' hq'
    rw [hzero,height,Finset.card_pos]
    exact ⟨o,Finset.mem_filter.mpr ⟨ho,.refl⟩⟩

theorem visit_quiet {bring : ObjId → Engine Value} (hr : B.Rooted) (hb : B.Books w) (hk : B.Knows w p)
    (h : wp (bring p) (fun r w' => r = .ret Status.none.toValue ∧ B.Hushed w w') w) :
    wp (visit E bring p) (fun r w' => r = .ret (.ok Status.none.toValue) ∧ B.Hushed w w') w := by
  have hcall : wp (callBring E bring p) (fun r w' => r = .ret Status.none.toValue ∧ B.Hushed w w') w := by
    unfold callBring
    rw [wp_bind_core,method_of_knows hb.toLedger hk hr.method]
    exact h
  apply wp_visit E hcall
  · rintro v w' ⟨hv,hw⟩
    exact ⟨by rw [Outcome.ret.inj hv],hw⟩
  · exact fun e w' h => by cases h.1
  · exact fun w' h => by cases h.1

section
variable (hg : B.origin.FileGraph) (hr : B.Rooted)

section
variable (hwatch : ∀ k ∈ Core.watched, k ∈ B.guarded)
include hr hwatch

theorem ensureDepsNewer_quiet (h : B.Quiet w) (hk : B.Knows w o) :
    wp (ensureDepsNewer o) (fun r w' => r = .ret () ∧ B.Hushed w w') w := by
  have hself : o ∈ [o] := List.mem_cons_self
  unfold ensureDepsNewer
  rw [wp_bind_core,wp_ite]
  split_ifs
  · exact ⟨rfl,.refl h.books h.pristine⟩
  · have hi := Core.idles_rawset_newer (K := B.guarded) (hk.lt_next h.books) ∅
    have hbare : w.now.Bare B.guarded (w.now.rawset o "deps_newer" (.names ∅)) :=
      Core.bare_rawset (.inr (by decide))
    exact ⟨rfl,h.books.idles hi,h.pristine.sees hr hwatch h.books.toLedger hi.toStays hbare.sees,hi,rfl,
      Core.noted_rawset (by decide)⟩

end

include hg hr

theorem missing_quiet (hA : E.flags.alwaysMake = false) (h : B.Quiet w) (hl : B.Leads w m o) (hu : B.origin.UpToDate m)
    (hc : B.Undone w o) : wp (missing E o) (fun r w' => r = .ret false ∧ B.Hushed w w') w := by
  have hk := Signs.Leads.knows hl
  have hrests : Moves (B.Rests [o]) (missing E o) := rests_missing List.mem_cons_self
  have hnotes : Moves Notes (missing E o) := moves_ite (moves_pure _)
    (moves_bind (notes_quietly (Core.noted_readCached (by decide) _ _)) fun _ => moves_pure _)
  have hm := h.pristine.missing hg hr h.books hk (h.books.untouched hr hc.status)
  refine ⟨hm.2.2 hA m hl (fun ht => ?_) (fun hnil => ?_),hushed_of h.books (by simpa using hk) hrests hnotes hm.1⟩
  · cases hu with
    | source _ hnil _ =>
      rw [ht.1] at hnil
      cases hnil
    | target _ hreg _ hex _ _ =>
      obtain rfl := Value.obj.inj (ht.1.symm.trans hreg)
      exact hex
  · cases hu with
    | source _ _ hfile => exact hfile
    | target _ hreg _ _ _ _ =>
      rw [hreg] at hnil
      cases hnil

theorem compareDep_quiet (h : B.Quiet w) (ht : B.Target m o) (hc : B.Undone w o) (hl : B.Leads w n p)
    (hp : B.Undone w p) (hno : B.origin.NotOlder o n) (b : Pass) :
    wp (compareDep E o p n b) (fun r w' => r = .ret (.next b) ∧ B.Hushed w w') w := by
  have hnotes : ∀ q, Moves Notes (quietly (readTimestamp E q)) :=
    fun q => notes_quietly (Core.noted_readCached (by decide) _ _)
  have hrest : ∀ q ∈ [o,p], Moves (B.Rests [o,p]) (quietly (readTimestamp E q)) :=
    fun q hq => rests_readCached hq (by decide) _
  have hk : ∀ q ∈ [o,p], B.Knows w q := by
    intro q hq
    rcases List.mem_pair.mp hq with rfl | rfl
    · exact ht.knows w
    · exact Signs.Leads.knows hl
  have hcmp := h.pristine.compare hg hr h.books ht (h.books.untouched hr hc.status) hl
  have hless : ∀ u v, Moves Notes (lessThan u v) := by
    intro u v
    unfold lessThan
    split
    · exact moves_pure _
    · exact moves_pure _
    · exact moves_raise _
  have hhush := hushed_of h.books hk
    (moves_bind (hrest o (by simp)) fun s => moves_bind (hrest p (by simp)) fun t => rests_lessThan s t)
    (moves_bind (hnotes o) fun s => moves_bind (hnotes p) fun t => hless s t) hcmp.1
  have hret := (hcmp.2 (h.books.untouched hr hp.status)).2 hno
  rw [Signs.compareDep_eq]
  have hall : wp (do
      let s ← quietly (readTimestamp E o)
      let t ← quietly (readTimestamp E p)
      lessThan s t) (fun r w' => r = .ret false ∧ B.Hushed w w') w := ⟨hret,hhush⟩
  apply wp_bind_of hall
  · rintro older w' ⟨he,hw⟩
    cases he
    exact ⟨rfl,hw⟩
  · exact fun e w' hw => by cases hw.1
  · exact fun w' hw => by cases hw.1

/-- Nothing must be built, and only dependencies are gone through. -/
theorem visitStart_quiet (hwatch : ∀ k ∈ Core.watched, k ∈ B.guarded) (hA : E.flags.alwaysMake = false)
    (h : B.Quiet w) (hl : B.Leads w m o) (hu : B.origin.UpToDate m) (hc : B.Undone w o) :
    wp (visitStart E o) (fun r w' => (∃ l, r = .ret (false,l) ∧ ∀ n ∈ l, n ∈ B.origin.deps o) ∧ B.Hushed w w') w := by
  have hknows := Signs.Leads.knows hl
  unfold visitStart
  apply wp_bind_of (ensureDepsNewer_quiet hr hwatch h hknows)
  · rintro _ w₁ ⟨_,h₁⟩
    have hlt := hknows.lt_next h.books
    have hq₁ := h.move h₁
    have hc₁ := hc.move hlt h₁
    have hl₁ := h₁.leads hl
    apply wp_bind_of (missing_quiet hg hr hA hq₁ hl₁ hu hc₁)
    · rintro mustBuild w₂ ⟨hb,h₂⟩
      cases hb
      have hlt₁ := (Signs.Leads.knows hl₁).lt_next hq₁.books
      have hq₂ := hq₁.move h₂
      have hc₂ := hc₁.move hlt₁ h₂
      have hattr : w₂.now.attr o "deps" = .names (B.origin.deps o) := by
        rw [Core.attr_eq_rawget (by rw [hc₂.deps]; simp),hc₂.deps]
      have hdeps : readDeps o w₂.now = (.ret (B.origin.deps o),w₂.now) := by
        rcases readDeps_cases o w₂.now with ⟨s,hs,he⟩ | ⟨e,he⟩
        · rw [hattr] at hs
          rw [he,Value.names.inj hs]
        · simp [readDeps,run_bind_gets,hattr] at he
      apply wp_bind_ret (quietly_ret hdeps)
      have hi : w₂.now.Idles B.guarded { w₂.now with tick := w₂.now.tick+1 } :=
        Core.idles_of_heap rfl rfl rfl rfl rfl rfl rfl
      have hbare : w₂.now.Bare B.guarded { w₂.now with tick := w₂.now.tick+1 } := Core.bare_of_heap rfl rfl rfl
      have h₃ : B.Hushed w₂ { w₂ with now := { w₂.now with tick := w₂.now.tick+1 } } :=
        ⟨hq₂.books.idles hi,hq₂.pristine.sees hr hwatch hq₂.books.toLedger hi.toStays hbare.sees,hi,rfl,
          ⟨le_rfl,fun _ _ _ _ => rfl,rfl,rfl,rfl⟩⟩
      exact ⟨⟨_,rfl,fun n hn => (E.names.mem_order _ _ n).mp hn⟩,(h₁.trans h₂).trans h₃⟩
    · exact fun e w' hw => by cases hw.1
    · exact fun w' hw => by cases hw.1
  · exact fun e w' hw => by cases hw.1
  · exact fun w' hw => by cases hw.1

/-- A target that is up to date answers `none`. -/
theorem bringUpToDate_quiet (hwatch : ∀ k ∈ Core.watched, k ∈ B.guarded) (hA : E.flags.alwaysMake = false)
    (k : ℕ) (h : B.Quiet w) (hl : B.Leads w m o) (hu : B.origin.UpToDate m)
    (hc : B.Undone w o) (hk : height B.origin.Feeds (Finset.range B.origin.next) o < k) :
    wp (bringUpToDate E k o) (fun r w' => r = .ret Status.none.toValue ∧ B.Hushed w w') w := by
  induction k generalizing m o w with
  | zero => exact absurd hk (Nat.not_lt_zero _)
  | succ k ih =>
    have hknows := Signs.Leads.knows hl
    have hlt := hknows.lt_next h.books
    have hplain := UpToDate.plain hu hl
    have hsettled : ¬w.now.settled o := by
      have hne := attr_nil hg h.books hknows hplain (k := "status") rfl hc.status
      rintro (hs | hs | hs) <;> exact hne _ hs
    apply wp_bringUpToDate E (fun l b w' => b = ⟨false,false⟩ ∧ B.Hushed w w' ∧ ∀ n ∈ l, n ∈ B.origin.deps o)
      fun b w' => b = ⟨false,false⟩ ∧ B.Hushed w w'
    · exact fun hs => absurd hs hsettled
    · intro _
      apply wp_mono (visitStart_quiet hg hr hwatch hA h hl hu hc)
      rintro r w' ⟨⟨l,rfl,hdeps⟩,h'⟩
      exact ⟨rfl,h',hdeps⟩
    · rintro n l b w' ⟨rfl,h',hmem⟩
      have hq' := h.move h'
      obtain ⟨ht,hno,hun⟩ := UpToDate.deps hu (h'.leads hl) (hmem n List.mem_cons_self)
      obtain ⟨p,c,hlook,hh,hlp,hcp⟩ := hq'.lookup hr hwatch hun
      have hq := hq'.move hh
      unfold depStep
      apply wp_bind_ret (quietly_ret hlook)
      rw [wp_bind_asTable]
      have hroom := (height_leads hlp ht (hmem n List.mem_cons_self)).trans_le (Nat.le_of_lt_succ hk)
      have hvisit := visit_quiet hr hq.books (Signs.Leads.knows hlp) (ih hq hlp hun hcp hroom)
      apply wp_bind_of hvisit
      · rintro r w₄ ⟨hr',h₄⟩
        cases hr'
        have hq₄ := hq.move h₄
        have hh' := (h'.trans hh).trans h₄
        have hlt' := (Signs.Leads.knows hlp).lt_next hq.books
        apply wp_mono (compareDep_quiet hg hr hq₄ ht (hc.move hlt hh') (h₄.leads hlp) (hcp.move hlt' h₄) hno ⟨false,false⟩)
        rintro r w₅ ⟨rfl,h₅⟩
        exact ⟨rfl,hh'.trans h₅,fun n hn => hmem n (List.mem_cons_of_mem _ hn)⟩
      · exact fun e w' hw => by cases hw.1
      · exact fun w' hw => by cases hw.1
    · exact fun b w' hw' => ⟨hw'.1,hw'.2.1⟩
    · rintro b w' ⟨rfl,h'⟩
      have hc' := hc.move hlt h'
      have hne := attr_nil hg h'.books (hknows.mono h'.idles.next) hplain (k := "dep_status") rfl hc'.failed .error
      unfold finishTargetUpdate
      rw [wp_bind_core,wp_ite,if_neg (by simp),wp_ite,if_neg hne,wp_ite,if_neg (by simp)]
      exact ⟨rfl,h'⟩

end

end Build
end Presto

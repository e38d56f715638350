import Presto.Engine.Idempotent
import Presto.Engine.NewerFrame

/-! The list `deps_newer` with which a job starts: it holds the dependencies that have been updated
or are newer, unless the target is not there and a dependency is older than the build. -/
namespace Presto
open Program Traced

namespace Core
variable (c : Core)

/-- The dependency `k` has been updated in this run. -/
def Updated (k : String) : Prop := ∃ p, c.registry k = .obj p ∧ c.rawget p "status" = Status.updated.toValue

/-- The file of the dependency `k` is there, and is dated `t`. -/
def FileDated (k : String) (t : ℤ) : Prop :=
  (∃ p, c.registry k = .obj p ∧ c.Existing p ∧ c.Dated p t) ∨
    c.registry k = .nil ∧ c.files.exists k ∧ t = c.files.stamp k

/-- The file of the dependency `k` is newer than that of `o`. A file that is not there is older than
every dependency. -/
def NewerDep (o : ObjId) (k : String) : Prop :=
  c.Existing o → ∃ s t, c.Dated o s ∧ c.FileDated k t ∧ s < t

/-- The list of `o` holds exactly the dependencies that have been updated or are newer. -/
def ListsNewer (o : ObjId) : Prop :=
  ∃ s, c.attr o "deps_newer" = .names s ∧ ∀ k, k ∈ s ↔ k ∈ c.deps o ∧ (c.Updated k ∨ c.NewerDep o k)

/-- The file of the dependency `k` has been written since the launch. -/
def AfterLaunch (k : String) : Prop := ∀ t, c.FileDated k t → 0 < t

variable {c} {o : ObjId} {k : String} {s t a : ℤ}

theorem FileDated.unique (hs : c.FileDated k s) (ht : c.FileDated k t) : s = t := by
  rcases hs with ⟨p,hp,_,hs⟩ | ⟨hn,_,rfl⟩ <;> rcases ht with ⟨q,hq,_,ht⟩ | ⟨hn',_,rfl⟩
  · obtain rfl := Value.obj.inj (hp.symm.trans hq)
    exact hs.unique ht
  · rw [hp] at hn'
    cases hn'
  · rw [hq] at hn
    cases hn
  · rfl

theorem notOlder_iff (ho : c.Dated o a) (hk : c.FileDated k t) : c.NotOlder o k ↔ t ≤ a := by
  constructor
  · intro h
    obtain ⟨hreg,hnil⟩ := h a ho
    rcases hk with ⟨p,hp,_,ht⟩ | ⟨hn,_,rfl⟩
    · exact hreg p t hp ht
    · exact hnil hn
  · intro hle s hs
    obtain rfl := hs.unique ho
    rcases hk with ⟨p,hp,_,ht⟩ | ⟨hn,_,rfl⟩
    · refine ⟨fun q t' hq ht' => ?_,fun hn => by rw [hp] at hn; cases hn⟩
      obtain rfl := Value.obj.inj (hp.symm.trans hq)
      rwa [ht'.unique ht]
    · exact ⟨fun q t' hq _ => (by rw [hn] at hq; cases hq),fun _ => hle⟩

theorem Dated.of_missing (ho : c.Dated o a) (hno : ¬c.Existing o) : a = 0 := by
  rcases ho with ⟨_,rfl⟩ | ⟨hp,k,hk,rfl⟩
  · rfl
  · exact if_neg fun he => hno ⟨hp,k,hk,he⟩

/-- A list that holds what has been updated, and what has a greater timestamp. -/
theorem listsNewer_iff {l : Finset String} (hlist : c.attr o "deps_newer" = .names l)
    (hsub : ∀ k ∈ l, k ∈ c.deps o) (ho : c.Dated o a)
    (hmem : ∀ k ∈ c.deps o, k ∈ l ↔ c.Updated k ∨ ¬c.NotOlder o k)
    (hfile : ∀ k ∈ c.deps o, ¬c.Updated k → ∃ t, c.FileDated k t) :
    c.ListsNewer o ↔ c.Existing o ∨ ∀ k ∈ c.deps o, c.Updated k ∨ c.AfterLaunch k := by
  have hnewer : ∀ k ∈ c.deps o, ¬c.Updated k → ∃ t, c.FileDated k t ∧ (k ∈ l ↔ a < t) := by
    intro k hk hu
    obtain ⟨t,ht⟩ := hfile k hk hu
    refine ⟨t,ht,?_⟩
    rw [hmem k hk,notOlder_iff ho ht,or_iff_right hu,not_le]
  constructor
  · rintro ⟨l',hl',hiff⟩
    obtain rfl := Value.names.inj (hlist.symm.trans hl')
    refine (em (c.Existing o)).imp_right fun hno k hk => ?_
    by_cases hu : c.Updated k
    · exact .inl hu
    · obtain ⟨t,ht,hlt⟩ := hnewer k hk hu
      refine .inr fun t' ht' => ?_
      rw [← ho.of_missing hno,ht'.unique ht]
      exact hlt.mp ((hiff k).mpr ⟨hk,.inr fun h => absurd h hno⟩)
  · intro h
    refine ⟨l,hlist,fun k => ⟨fun hkl => ⟨hsub k hkl,?_⟩,fun ⟨hk,hnew⟩ => ?_⟩⟩
    · by_cases hu : c.Updated k
      · exact .inl hu
      · obtain ⟨t,ht,hlt⟩ := hnewer k (hsub k hkl) hu
        exact .inr fun _ => ⟨a,t,ho,ht,hlt.mp hkl⟩
    · by_cases hu : c.Updated k
      · exact (hmem k hk).mpr (.inl hu)
      · obtain ⟨t,ht,hlt⟩ := hnewer k hk hu
        rw [hlt]
        by_cases he : c.Existing o
        · obtain ⟨s,t',hs,ht',hst⟩ := hnew.resolve_left hu he
          rwa [ho.unique hs,ht.unique ht']
        · rw [ho.of_missing he]
          exact ((h.resolve_left he k hk).resolve_left hu) t ht

end Core

namespace Build
variable {E : Env} {B : Build E} {w w' w₀ : World} {o self dep : ObjId} {m k name : String} {t : ℤ}

section Pristine
theorem Target.isPhony_iff (ht : B.Target m o) (hb : B.Books w) : w.now.IsPhony o ↔ B.origin.IsPhony o := by
  unfold Core.IsPhony
  rw [hb.stays.chain o ht.lt]

variable (h : B.Pristine w) (hr : B.Rooted) (hb : B.Books w)
include h hr hb

theorem Pristine.dated_iff (ht : B.Target m o) (hu : ¬Touched w o) : w.now.Dated o t ↔ B.origin.Dated o t := by
  obtain ⟨j,hj,hj',_⟩ := Target.name hr hb ht
  have hs := FileSystem.stamp_congr (h.same hr hb (.inl ht) hu hj)
  unfold Core.Dated
  rw [ht.isPhony_iff hb,hj,hj']
  simp only [Value.str.injEq,exists_eq_left',hs]

theorem Pristine.existing_iff (ht : B.Target m o) (hu : ¬Touched w o) : w.now.Existing o ↔ B.origin.Existing o := by
  obtain ⟨j,hj,hj',_⟩ := Target.name hr hb ht
  have hs := FileSystem.exists_congr (h.same hr hb (.inl ht) hu hj)
  unfold Core.Existing
  rw [ht.isPhony_iff hb,hj,hj']
  simp only [Value.str.injEq,exists_eq_left',hs]

theorem Pristine.notOlder_iff (ht : B.Target m o) (hu : ¬Touched w o)
    (hk : B.origin.registry k = .nil ∨ ∃ p, B.Target k p ∧ ¬Touched w p) :
    w.now.NotOlder o k ↔ B.origin.NotOlder o k := by
  have hdated : ∀ q t, B.origin.registry k = .obj q → (w.now.Dated q t ↔ B.origin.Dated q t) := by
    intro q t hq
    rcases hk with hnil | ⟨p,hp,hup⟩
    · rw [hnil] at hq
      cases hq
    · obtain rfl := Value.obj.inj (hp.1.symm.trans hq)
      exact h.dated_iff hr hb hp hup
  unfold Core.NotOlder
  rw [hb.registry]
  simp only [h.dated_iff hr hb ht hu]
  refine forall₂_congr fun s _ => and_congr (forall₃_congr fun q t hq => by rw [hdated q t hq]) ?_
  refine forall_congr' fun hnil => ?_
  rw [FileSystem.stamp_congr (h.source hnil)]

end Pristine

/-- The name leads to a file that is there and has nothing to be done. -/
def Filed (B : Build E) (k : String) : Prop := (B.origin.registry k = .nil → B.origin.files.exists k) ∧
  ∀ p, B.Target k p → B.origin.Existing p ∧ B.origin.Fresh E.flags.alwaysMake p

/-- A job that starts has a command, and its list of newer dependencies is right if its file is there or
the other dependencies are younger than the build. -/
def Begins (B : Build E) (e : Event) (c : Core) : Prop := ∀ o i, e = .start o i →
  (B.origin.attr o "command").truthy ∧
    (c.ListsNewer o ↔ c.Existing o ∨ ∀ k ∈ c.deps o, c.Updated k ∨ c.AfterLaunch k)

/-- What the lists of newer dependencies are in all states of a build. -/
structure Lists (B : Build E) (w : World) : Prop where
  next : B.origin.next ≤ w.now.next
  phony : w.now.rawget phonyClass "deps_newer" = .nil
  own : ∀ m o, B.Target m o → w.now.rawget o "deps_newer" = .nil ∨
    ∃ l, w.now.rawget o "deps_newer" = .names l ∧ ∀ k ∈ l, k ∈ B.origin.deps o ∧
      ((∃ p, B.Target k p ∧ Touched w p) ∨ ¬B.origin.NotOlder o k)
  starts : w.Always B.Begins

/-- The lists of newer dependencies only grow. -/
structure Swells (w w' : World) : Prop where
  next : w.now.next ≤ w'.now.next
  newer : ∀ o < w.now.next, ∀ l, w.now.rawget o "deps_newer" = .names l →
    ∃ l', w'.now.rawget o "deps_newer" = .names l' ∧ l ⊆ l'
  failed : ∀ o < w.now.next, w.now.rawget o "dep_status" = Status.error.toValue →
    w'.now.rawget o "dep_status" = Status.error.toValue
  emits : Emits (fun _ => True) w w'

instance : IsPreorder World Swells where
  refl w := ⟨le_rfl,fun _ _ l hl => ⟨l,hl,subset_rfl⟩,fun _ _ => id,refl_of (Emits _) w⟩
  trans _ _ _ h h' := ⟨h.next.trans h'.next,fun o ho l hl => by
    obtain ⟨l',hl',hsub⟩ := h.newer o ho l hl
    obtain ⟨l'',hl'',hsub'⟩ := h'.newer o (ho.trans_le h.next) l' hl'
    exact ⟨l'',hl'',hsub.trans hsub'⟩,fun o ho hf => h'.failed o (ho.trans_le h.next) (h.failed o ho hf),
    trans_of (Emits _) h.emits h'.emits⟩

theorem swells_of_aside (h : Aside w w') : Swells w w' :=
  ⟨h.next,fun o ho l hl => ⟨l,(h.newer o ho).trans hl,subset_rfl⟩,h.failed,h.emits.mono fun _ _ => trivial⟩

theorem Lists.step (h : B.Lists w) (ha : Aside w w') : B.Lists w' := by
  have hlt : phonyClass < B.origin.next := Nat.lt_of_lt_of_le (by decide) B.ready.sound.classes
  refine ⟨h.next.trans ha.next,(ha.newer _ (hlt.trans_le h.next)).trans h.phony,fun m o ht => ?_,?_⟩
  · rw [ha.newer o (ht.lt.trans_le h.next)]
    refine (h.own m o ht).imp_right ?_
    rintro ⟨l,hl,hall⟩
    refine ⟨l,hl,fun k hk => ⟨(hall k hk).1,(hall k hk).2.imp_left ?_⟩⟩
    exact fun ⟨p,hp,htouch⟩ => ⟨p,hp,htouch.mono ha.emits⟩
  · exact ha.emits.always h.starts fun e c he o i hs => absurd (by rw [hs]; trivial) he

/-- A list is written. -/
theorem Lists.write (h : B.Lists w) (hne : o ≠ phonyClass) {l : Finset String}
    (hl : ∀ m, B.Target m o → ∀ k ∈ l, k ∈ B.origin.deps o ∧
      ((∃ p, B.Target k p ∧ Touched w p) ∨ ¬B.origin.NotOlder o k)) :
    B.Lists { w with now := w.now.rawset o "deps_newer" (.names l) } := by
  have hraw : ∀ q, q ≠ o → (w.now.rawset o "deps_newer" (.names l)).rawget q "deps_newer" =
      w.now.rawget q "deps_newer" := fun q hq => by simp [hq]
  refine ⟨h.next,(hraw _ hne.symm).trans h.phony,fun m q ht => ?_,h.starts⟩
  by_cases hq : q = o
  · subst hq
    exact .inr ⟨l,by simp,hl m ht⟩
  · change (w.now.rawset o "deps_newer" (.names l)).rawget q "deps_newer" = .nil ∨
      ∃ l', (w.now.rawset o "deps_newer" (.names l)).rawget q "deps_newer" = .names l' ∧ _
    rw [hraw q hq]
    exact h.own m q ht

theorem swells_rawset {l : Finset String} (hl : ∀ l', w.now.rawget o "deps_newer" = .names l' → l' ⊆ l) :
    Swells w { w with now := w.now.rawset o "deps_newer" (.names l) } := by
  refine ⟨le_rfl,fun q _ l' hl' => ?_,fun q _ hf => by simpa using hf,[],rfl,by simp⟩
  by_cases hq : q = o
  · subst hq
    exact ⟨l,by simp,hl l' hl'⟩
  · exact ⟨l',by simpa [hq] using hl',subset_rfl⟩

/-- The list of a target that is brought up to date is made if need be. -/
theorem ensureDepsNewer_lists (hg : B.origin.FileGraph) (h : B.Lists w) (hb : B.Books w) (hk : B.Knows w o) :
    wp (ensureDepsNewer o) (fun _ w' => (B.Lists w' ∧ Swells w w') ∧
      ∀ m, B.Target m o → ∃ l, w'.now.rawget o "deps_newer" = .names l) w := by
  have hnil : w.now.rawget o "deps_newer" = .nil → w.now.attr o "deps_newer" = .nil := by
    intro hraw
    obtain ⟨ht,hchain⟩ := knows_chain hg hb hk
    have hnone : w.now.holder o "deps_newer" = none := by
      apply List.find?_eq_none.mpr
      intro p hp
      rcases List.mem_cons.mp hp with rfl | hp
      · simp [hraw]
      · rcases hchain with ⟨hc,_⟩ | ⟨hc,_⟩ <;> rw [hc] at hp
        · cases hp
        · rw [List.mem_singleton.mp hp,h.phony]
          simp
    simp only [Core.attr,hnone,ht,if_true,hb.registry,hg.newer]
  unfold ensureDepsNewer
  rw [wp_bind_core,wp_ite]
  split_ifs with htruthy
  · refine ⟨⟨h,refl_of Swells w⟩,fun m ht => ?_⟩
    rcases h.own m o ht with hraw | ⟨l,hl,_⟩
    · rw [hnil hraw] at htruthy
      cases htruthy
    · exact ⟨l,hl⟩
  · refine ⟨⟨h.write (ne_phonyClass hg hk) (by simp),swells_rawset fun l' hl' => ?_⟩,fun _ _ => ⟨∅,?_⟩⟩
    · rw [Core.attr_eq_rawget (by simp [hl']),hl'] at htruthy
      exact absurd rfl htruthy
    · change (w.now.rawset o "deps_newer" (.names ∅)).rawget o "deps_newer" = _
      simp

/-- The name is on the list of `o`. -/
def Listed (w : World) (o : ObjId) (k : String) : Prop := ∃ l, w.now.rawget o "deps_newer" = .names l ∧ k ∈ l

/-- A dependency is put on the list. -/
theorem markNewer_lists (hg : B.origin.FileGraph) (h : B.Lists w) (hk : B.Knows w o) {l : Finset String}
    (hl : w.now.rawget o "deps_newer" = .names l) (hmem : k ∈ B.origin.deps o)
    (hwhy : (∃ p, B.Target k p ∧ Touched w p) ∨ ¬B.origin.NotOlder o k) :
    wp (markNewer o k) (fun r w' => r = .ret () ∧ (B.Lists w' ∧ Swells w w') ∧ Listed w' o k) w := by
  have hattr : w.now.attr o "deps_newer" = .names l := by rw [Core.attr_eq_rawget (by simp [hl]),hl]
  have hholder : w.now.holder o "deps_newer" = some o := by simp [Core.holder,hl]
  have hrun : markNewer o k w = (.ret (),{ w with now := w.now.rawset o "deps_newer" (.names (insert k l)) }) := by
    unfold markNewer
    simp only [core,run_bind_gets,hattr,hholder]
    rfl
  unfold wp
  rw [hrun]
  refine ⟨rfl,⟨h.write (ne_phonyClass hg hk) fun m ht j hj => ?_,swells_rawset fun l' hl' => ?_⟩,
    insert k l,by simp,Finset.mem_insert_self k l⟩
  · rcases Finset.mem_insert.mp hj with rfl | hj
    · exact ⟨hmem,hwhy⟩
    · rcases h.own m o ht with hnil | ⟨l',hl',hall⟩
      · rw [hl] at hnil
        cases hnil
      · obtain rfl := Value.names.inj (hl.symm.trans hl')
        exact hall j hj
  · obtain rfl := Value.names.inj (hl.symm.trans hl')
    exact Finset.subset_insert k l

/-- The dependency `k` of `o` has been dealt with. -/
def Weighed (B : Build E) (w : World) (o : ObjId) (k : String) : Prop :=
  Listed w o k ∧ (∃ p, B.Target k p ∧ Touched w p) ∨ B.Filed k ∧ (Listed w o k ∨ B.origin.NotOlder o k)

theorem Weighed.swells (h : B.Weighed w o k) (hlt : o < w.now.next) (hs : Swells w w') : B.Weighed w' o k := by
  have hlist : Listed w o k → Listed w' o k := fun ⟨l,hl,hk⟩ => by
    obtain ⟨l',hl',hsub⟩ := hs.newer o hlt l hl
    exact ⟨l',hl',hsub hk⟩
  exact h.imp (And.imp hlist fun ⟨p,hp,ht⟩ => ⟨p,hp,ht.mono hs.emits⟩) (And.imp_right (Or.imp_left hlist))

theorem Target.exists_dated (ht : B.Target m o) : ∃ t, B.origin.Dated o t := by
  by_cases hp : B.origin.IsPhony o
  · exact ⟨0,.inl ⟨hp,rfl⟩⟩
  · obtain ⟨j,hj,_⟩ := B.ready.named m o ht.1 ht.2
    exact ⟨_,.inr ⟨hp,j,hj,rfl⟩⟩

section Exact
variable {hg : B.origin.FileGraph} {hr : B.Rooted} {hE : B.origin.Confined E}
  {hwatch : ∀ k ∈ Core.watched, k ∈ B.guarded}

/-- What has nothing to be done is never started. -/
theorem Lists.untouched (h : B.Lists w) (hf : (B.freshSigns hg hr hE hwatch).Facts w) (ht : B.Target m o)
    (hfresh : B.origin.Fresh E.flags.alwaysMake o) : ¬Touched w o := by
  rintro ⟨i,hi⟩
  by_cases hA : E.flags.alwaysMake = false
  · exact hf.sure (o,i) hi ⟨hA,hfresh,m,ht⟩
  · obtain ⟨x,hx,hxi⟩ := List.mem_filterMap.mp hi
    have hstart : x.1 = .start o i := by
      cases hxe : x.1 with
      | start p j =>
        rw [hxe] at hxi
        cases hxi
        rfl
      | _ => rw [hxe] at hxi; cases hxi
    have hcommand := (h.starts x hx o i hstart).1
    rcases hfresh with ⟨hnone,_,_⟩
    rw [hnone (by simpa using hA)] at hcommand
    cases hcommand

/-- The list of a target all of whose dependencies are done and have been dealt with. -/
theorem Lists.exact (h : B.Lists w) (hf : (B.freshSigns hg hr hE hwatch).Facts w) (hb : B.Books w)
    (ht : B.Target m o) (hnil : w.now.rawget o "status" = .nil) (hdeps : w.now.deps o = B.origin.deps o)
    {l : Finset String} (hl : w.now.rawget o "deps_newer" = .names l)
    (hdone : ∀ n ∈ B.origin.deps o, (B.freshSigns hg hr hE hwatch).done w.now n)
    (hw : ∀ n ∈ B.origin.deps o, B.Weighed w o n) :
    w.now.ListsNewer o ↔ w.now.Existing o ∨ ∀ k ∈ w.now.deps o, w.now.Updated k ∨ w.now.AfterLaunch k := by
  have hp : B.Pristine w := hf.inv
  have hu := hb.untouched hr hnil
  have hreg := hb.registry
  have hlisted : ∀ k, Listed w o k ↔ k ∈ l := fun k =>
    ⟨fun ⟨l',hl',hk⟩ => by rwa [Value.names.inj (hl.symm.trans hl')],fun hk => ⟨l,hl,hk⟩⟩
  have hown : ∀ k ∈ l, k ∈ B.origin.deps o ∧ ((∃ p, B.Target k p ∧ Touched w p) ∨ ¬B.origin.NotOlder o k) := by
    rcases h.own m o ht with hnone | ⟨l',hl',hall⟩
    · rw [hl] at hnone
      cases hnone
    · obtain rfl := Value.names.inj (hl.symm.trans hl')
      exact hall
  have hidle : ∀ k ∈ B.origin.deps o, (B.origin.registry k = .nil ∨ ∃ p, B.Target k p ∧ ¬Touched w p) →
      ¬w.now.Updated k ∧ (k ∈ l ↔ ¬w.now.NotOlder o k) ∧ ∃ t, w.now.FileDated k t := by
    intro k hk hidle
    have hno : ¬∃ p, B.Target k p ∧ Touched w p := by
      rintro ⟨p,hkp,htouch⟩
      rcases hidle with hnone | ⟨q,hq,huq⟩
      · rw [hkp.1] at hnone
        cases hnone
      · obtain rfl := Value.obj.inj (hkp.1.symm.trans hq.1)
        exact huq htouch
    obtain ⟨⟨hsource,htarget⟩,hnewer⟩ := (hw k hk).resolve_left fun hw => hno hw.2
    rw [hlisted] at hnewer
    rw [hp.notOlder_iff hr hb ht hu hidle]
    refine ⟨?_,⟨fun hkl => (hown k hkl).2.resolve_left hno,hnewer.resolve_right⟩,?_⟩
    · rintro ⟨p,hkp,hs⟩
      obtain ⟨htouch,n,hn⟩ := hf.touched p (.inr hs)
      exact hno ⟨p,⟨by rw [← hreg]; exact hkp,hn.2⟩,htouch⟩
    · rcases hidle with hnone | ⟨p,hkp,hup⟩
      · refine ⟨_,.inr ⟨by rw [hreg]; exact hnone,?_,rfl⟩⟩
        rw [FileSystem.exists_congr (hp.source hnone)]
        exact hsource hnone
      · obtain ⟨t,hdated⟩ := hkp.exists_dated
        exact ⟨t,.inl ⟨p,by rw [hreg]; exact hkp.1,(hp.existing_iff hr hb hkp hup).mpr (htarget p hkp).1,
          (hp.dated_iff hr hb hkp hup).mpr hdated⟩⟩
  have hcases : ∀ k ∈ B.origin.deps o, w.now.Updated k ∧ k ∈ l ∨
      ¬w.now.Updated k ∧ (k ∈ l ↔ ¬w.now.NotOlder o k) ∧ ∃ t, w.now.FileDated k t := by
    intro k hk
    rcases hdone k hk with ⟨hnone,_⟩ | ⟨hkp,hs⟩ | ⟨hkp,hfresh,_⟩
    · exact .inr (hidle k hk (.inl hnone))
    · refine .inl ⟨⟨_,by rw [hreg]; exact hkp.1,hs⟩,(hlisted k).mp ?_⟩
      refine ((hw k hk).resolve_right fun hfiled => ?_).1
      exact h.untouched hf hkp (hfiled.1.2 _ hkp).2 (hf.touched _ (.inr hs)).1
    · exact .inr (hidle k hk (.inr ⟨_,hkp,h.untouched hf hkp hfresh⟩))
  obtain ⟨t,hdated⟩ := ht.exists_dated
  apply Core.listsNewer_iff (by rw [Core.attr_eq_rawget (by simp [hl]),hl]) (l := l)
    (fun k hk => by rw [hdeps]; exact (hown k hk).1) ((hp.dated_iff hr hb ht hu).mpr hdated)
  · intro k hk
    rw [hdeps] at hk
    rcases hcases k hk with ⟨hup,hkl⟩ | ⟨hup,hiff,_⟩
    · simp [hup,hkl]
    · simp [hup,hiff]
  · intro k hk hup
    rw [hdeps] at hk
    exact ((hcases k hk).resolve_left fun hc => hup hc.1).2.2

end Exact

end Build
end Presto

import Presto.Engine.Verdicts

/-! Whenever `bring_up_to_date` gives a target up, the files, the graph and the commands have settled it before
the build. -/
namespace Presto
open Program Traced

namespace Build.Signs
variable {E : Env} {B : Build E} {bad : ObjId → Prop} {w w' w₀ w₁ : World} {o self dep : ObjId} {m n name : String}
  {l : List String} {b : Pass} {S : B.Signs}

/-- The assumptions under which the outcome of a build is settled before it begins. -/
structure Trial (S : B.Signs) (bad : ObjId → Prop) : Prop where
  graph : B.origin.FileGraph
  rooted : B.Rooted
  judged : B.origin.Judged E bad
  spoken : B.origin.WellSpoken E
  always : E.flags.alwaysMake = false
  question : E.flags.question = false
  named : ∀ n, B.origin.Mentions n → B.origin.Findable n ∧ protectedMember n = .nil
  unbound : B.origin.registry "errmsg" = .nil
  pristine : ∀ {w}, S.Inv w → B.Pristine w
  fresh : ∀ {m o}, B.Target m o → B.origin.Fresh false o → S.Sure o
  still : ∀ {m o}, B.Target m o → S.Still o → S.Sure o

section
variable (T : S.Trial bad)
include T

/-- A name that is mentioned is found. -/
theorem Trial.lookup (hb : B.Books w) (hn : B.origin.Mentions n) :
    ∃ o c, targetIndex n w.now = (.ret (.obj o),c) ∧ B.Leads { w with now := c } n o ∧
      (B.origin.next ≤ o → c.rawget o "status" = .nil ∧ c.rawget o "dep_status" = .nil) := by
  obtain ⟨hfind,hmember⟩ := T.named n hn
  unfold Core.Findable at hfind
  rw [← hb.stays.defined] at hfind
  obtain ⟨hd,hne,_⟩ | ⟨_,hs,_⟩ | ⟨_,_,hne,he⟩ | ⟨_,_,hnil,he⟩ := targetIndex_cases n w.now
  · exact absurd ⟨hd,hne⟩ hfind.1
  · rw [hfind.2] at hs
    cases hs
  · rw [hb.registry] at hne he
    obtain hnone | ⟨o,ho,ht⟩ := B.ready.sound.bound n hmember
    · exact absurd hnone hne
    · rw [ho] at he
      refine ⟨o,w.now,he,.inl ⟨ho,ht⟩,fun hle => ?_⟩
      exact absurd (B.ready.sound.registered ho) (not_lt.mpr hle)
  · refine ⟨w.now.next,_,he,.inr ⟨?_,hb.stays.next,Nat.lt_succ_self _,?_⟩,fun _ => ?_⟩
    · rw [← hb.registry]
      exact hnil
    · simp [Core.rawget,Core.instance]
    · constructor <;> simp [Core.rawget,Core.instance,noFields]

/-- What a target has under the name of the list of newer dependencies. -/
theorem Trial.list_of_truthy (hb : B.Books w) (hv : S.Verdicts bad w) (hk : B.Knows w o)
    (ht : (w.now.attr o "deps_newer").truthy) : ∃ s, w.now.attr o "deps_newer" = .names s := by
  have hlt := hk.lt_next hb
  cases hh : w.now.holder o "deps_newer" with
  | none =>
    simp only [Core.attr,hh,hb.registry,T.graph.newer] at ht
    split_ifs at ht
    all_goals cases ht
  | some p =>
    have hp := List.mem_of_find?_eq_some hh
    have hne : w.now.rawget p "deps_newer" ≠ .nil := by simpa using List.find?_some hh
    obtain ⟨s,hs⟩ := (hv.slate p (hb.linked.lt_next hlt hp)).resolve_left hne
    exact ⟨s,by simp only [Core.attr,hh]; exact hs⟩

/-- A list of newer dependencies stays. -/
theorem Trial.list_grows (hb : B.Books w) (hb' : B.Books w') (hv : S.Verdicts bad w') (hk : B.Knows w o)
    (hst : w.now.Stays B.guarded w'.now) (hg : w.now.Grows w'.now)
    (hl : ∃ s, w.now.attr o "deps_newer" = .names s) : ∃ s, w'.now.attr o "deps_newer" = .names s := by
  have hlt := hk.lt_next hb
  obtain ⟨s,hs⟩ := hl
  cases hh : w.now.holder o "deps_newer" with
  | none =>
    simp only [Core.attr,hh,hb.registry,T.graph.newer] at hs
    split_ifs at hs
  | some p =>
    have hp := List.mem_of_find?_eq_some hh
    simp only [Core.attr,hh] at hs
    obtain ⟨s',hs'⟩ := hg.newer p (hb.linked.lt_next hlt hp) s hs
    have hchain : (w'.now.heap o).chain = (w.now.heap o).chain := hst.chain o hlt
    rw [← hchain] at hp
    exact Core.names_of_slate (fun q hq => hv.slate q (hb'.linked.lt_next (hlt.trans_le hst.next) hq)) hp hs'

/-- A field of a target that has not been started is read. -/
theorem Trial.read (hb : B.Books w) (hp : B.Pristine w) (hl : B.Leads w m o) (hu : ¬Touched w o) {key getter : String}
    (hx : (key,getter) ∈ cachedFields) : wp (quietly (readCached E key getter o) : Engine Value)
      (Rets fun v w' => B.Pristine w' ∧ B.Told w o key v) w := by
  apply wp_mono (hp.read T.graph T.rooted hb (Leads.knows hl) hx)
  intro r w' h
  obtain ⟨hp,hv⟩ := h
  obtain ⟨v,rfl,htold⟩ := hv m hl hu
  exact ⟨hp,htold⟩

theorem Trial.missing_rets (hb : B.Books w) (hp : B.Pristine w) (hl : B.Leads w m o) (hu : ¬Touched w o) :
    wp (Presto.missing E o) (Rets fun r _ => r = true → ∀ n, B.Leads w n o → B.origin.registry n = .nil →
      B.origin.files.exists n = false) w := by
  have hrets : wp (Presto.missing E o) (Rets fun _ _ => True) w := by
    unfold Presto.missing
    rw [wp_ite,if_neg (by simp [T.always])]
    exact wp_bind_rets (T.read hb hp hl hu (show ("exists","get_exists") ∈ cachedFields by decide)) fun _ _ _ => trivial
  apply wp_mono (wp_and hrets (hp.missing T.graph T.rooted hb (Leads.knows hl) hu))
  intro r w' h
  obtain ⟨hret,_,_,hsure⟩ := h
  cases r with
  | ret r =>
    intro hr n hn hnil
    by_contra hex
    have hno := hsure T.always n hn (fun ht => absurd (ht.1.symm.trans hnil) (by simp)) fun _ => by simpa using hex
    rw [hr] at hno
    cases hno
  | raise e => exact hret
  | diverge => exact hret

/-- Two timestamps are compared. -/
theorem Trial.compare_rets (hb : B.Books w) (hp : B.Pristine w) (ht : B.Target m o) (hu : ¬Touched w o)
    (hl : B.Leads w n dep) (hu' : ¬Touched w dep) : wp (do
      let s ← quietly (readTimestamp E o)
      let t ← quietly (readTimestamp E dep)
      lessThan s t) (Rets fun _ _ => True) w := by
  have hx : ("timestamp","get_timestamp") ∈ cachedFields := by decide
  have hmoves : Moves (B.Rests [o]) (quietly (readTimestamp E o)) :=
    rests_readCached List.mem_cons_self (by decide) _
  have hreads : Moves (Reads B.guarded) (quietly (readTimestamp E o)) :=
    reads_quietly (firm_readCached (by decide) _ _)
  have hfirst : wp (quietly (readTimestamp E o)) (Rets fun s w' => (B.Pristine w' ∧ B.Told w o "timestamp" s) ∧
      (B.Books w' ∧ w.now.Idles B.guarded w'.now) ∧ Reads B.guarded w w') w :=
    rets_of (T.read hb hp (.inl ht) hu hx) ⟨hmoves w hb (by simpa using ht.knows w),hreads w⟩
  apply wp_bind_rets hfirst
  intro s w' h
  obtain ⟨⟨hp',hs⟩,⟨hb',hi⟩,hread⟩ := h
  obtain ⟨a,rfl,_⟩ := Leads.dated T.rooted hb (.inl ht) hs
  have hl' := Leads.along T.rooted hl (.of_idles T.rooted hi hread.firm)
  have hsame : ¬Touched w' dep := by
    unfold Touched starts
    rw [hread.trace]
    exact hu'
  apply wp_bind_rets (T.read hb' hp' hl' hsame hx)
  intro t w'' h
  obtain ⟨_,ht'⟩ := h
  obtain ⟨b,rfl,_⟩ := Leads.dated T.rooted hb' hl' ht'
  exact trivial

theorem Trial.ensureDepsNewer_rets (hb : B.Books w) (hv : S.Verdicts bad w) (hk : B.Knows w o) :
    wp (ensureDepsNewer o) (Rets fun _ w' => ∃ s, w'.now.attr o "deps_newer" = .names s) w := by
  unfold ensureDepsNewer
  rw [wp_bind_core,wp_ite]
  split_ifs with ht
  · exact T.list_of_truthy hb hv hk ht
  · refine ⟨∅,?_⟩
    change (w.now.rawset o "deps_newer" (.names ∅)).attr o "deps_newer" = _
    rw [Core.attr_eq_rawget (by simp)]
    simp

/-- The work on a target begins: it has its list, and its dependencies are gone through. -/
theorem Trial.visitStart_rets (hb : B.Books w) (hf : S.Facts w) (hv : S.Verdicts bad w) (hl : B.Leads w m self)
    (hnil : w.now.rawget self "status" = .nil) : wp (visitStart E self) (Rets fun p w' =>
      ((S.Verdicts bad w' ∧ w.now.Grows w'.now) ∧ ∃ s, w'.now.attr self "deps_newer" = .names s) ∧
        (∀ n, n ∈ p.2 ↔ n ∈ w'.now.deps self) ∧ (p.1 = true → ∀ n, B.Leads w n self → B.origin.registry n = .nil →
          B.origin.files.exists n = false)) w := by
  have hself : self ∈ [self] := List.mem_cons_self
  have hk := Leads.knows hl
  have hks : ∀ o ∈ [self], B.Knows w o := by simpa using hk
  have hu := hb.untouched T.rooted hnil
  unfold visitStart
  have hbears := bears_ensureDepsNewer (S := S) T.rooted hself w hb hks hf
  have hfirst : wp (ensureDepsNewer self) (Rets fun _ w' => (∃ s, w'.now.attr self "deps_newer" = .names s) ∧
      (((B.Books w' ∧ S.Facts w') ∧ w.now.Idles B.guarded w'.now ∧ w.now.Firm B.guarded w'.now) ∧ Mute w w')) w :=
    rets_of (T.ensureDepsNewer_rets hb hv hk) ⟨hbears,mute_ensureDepsNewer self w⟩
  apply wp_bind_rets hfirst
  intro _ w₁ h
  obtain ⟨hlist,⟨⟨hb₁,hf₁⟩,hi₁,hfirm₁⟩,hm₁⟩ := h
  have hl₁ := Leads.along T.rooted hl (.of_idles T.rooted hi₁ hfirm₁)
  have hnil₁ : w₁.now.rawget self "status" = .nil := (hi₁.status self (hk.lt_next hb)).trans hnil
  have hk₁ := Leads.knows hl₁
  have hmiss : wp (Presto.missing E self) (Rets fun r w' => (r = true → ∀ n, B.Leads w₁ n self →
      B.origin.registry n = .nil → B.origin.files.exists n = false) ∧
        (B.Books w' ∧ w₁.now.Idles B.guarded w'.now) ∧ Mute w₁ w') w₁ :=
    rets_of (T.missing_rets hb₁ (T.pristine hf₁.inv) hl₁ (hb₁.untouched T.rooted hnil₁))
      ⟨rests_missing hself w₁ hb₁ (by simpa using hk₁),mute_missing self w₁⟩
  apply wp_bind_rets hmiss
  intro mustBuild w₂ h
  obtain ⟨habsent,⟨hb₂,hi₂⟩,hm₂⟩ := h
  have hm := trans_of Mute hm₁ hm₂
  have hv₂ := hv.idles hb.toLedger (hi₁.trans hi₂) hm
  have hk₂ := hk₁.mono hi₂.next
  obtain ⟨s,hs⟩ := hv₂.names self hk₂
  have hattr : w₂.now.attr self "deps" = .names s := by rw [Core.attr_eq_rawget (by simp [hs]),hs]
  have hread : readDeps self w₂.now = (.ret s,w₂.now) := by
    simp [readDeps,run_bind_gets,hattr]
  apply wp_bind_ret (quietly_ret hread)
  have hmt : Mute w₂ { w₂ with now := { w₂.now with tick := w₂.now.tick+1 } } :=
    mute_enumerate (E := E) s w₂
  have hit : w₂.now.Idles B.guarded { w₂.now with tick := w₂.now.tick+1 } :=
    Core.idles_of_heap rfl rfl rfl rfl rfl rfl rfl
  have hv₃ : S.Verdicts bad { w₂ with now := { w₂.now with tick := w₂.now.tick+1 } } :=
    hv₂.idles hb₂.toLedger hit hmt
  refine ⟨⟨⟨hv₃,(trans_of Mute hm hmt).toGrows⟩,?_⟩,fun n => ?_,fun hr n hn =>
    habsent hr n (Leads.along T.rooted hn (.of_idles T.rooted hi₁ hfirm₁))⟩
  · exact T.list_grows hb₁ (hb₂.idles hit) hv₃ hk₁ (hi₂.toStays.trans hit.toStays)
      (trans_of Mute hm₂ hmt).toGrows hlist
  · have hdeps : w₂.now.deps self = s := Core.deps_of_rawget hs
    change n ∈ E.names.order w₂.now.tick s ↔ n ∈ w₂.now.deps self
    rw [hdeps,E.names.mem_order]

end

/-- What is known throughout the work on `o`, which begins in `w₁`. -/
structure Heard (S : B.Signs) (bad : ObjId → Prop) (w₁ : World) (o : ObjId) (w : World) : Prop where
  verdicts : S.Verdicts bad w
  grows : w₁.now.Grows w.now
  advances : w₁.now.Advances w.now
  list : ∃ s, w.now.attr o "deps_newer" = .names s

/-- The target `self` is given up, and rightly so. -/
def GivenUp (S : B.Signs) (bad : ObjId → Prop) (w₁ : World) (self : ObjId) (w : World) : Prop :=
  (S.Verdicts bad w ∧ w₁.now.Grows w.now) ∧ ∀ m, B.Target m self → B.origin.Fails bad m ∧ S.Tried w.now m

/-- How the work on one dependency may end. -/
def Ruled (S : B.Signs) (bad : ObjId → Prop) (w₁ : World) (self : ObjId) (name : String) (b : Pass) :
    Outcome Value (Step Pass Value) → World → Prop
  | .ret (.next b'),w => S.Heard bad w₁ self w ∧ (b'.mustWait = false → b.mustWait = false ∧
      (E.flags.keepGoing = true → S.Tried w.now name))
  | .ret (.stop _),w => S.Heard bad w₁ self w
  | .ret (.leave _),w => S.GivenUp bad w₁ self w
  | _,_ => False

section
variable (T : S.Trial bad)
include T

/-- A step that is no matter of verdicts. -/
theorem Trial.step (h : S.Heard bad w₁ self w) (hb : B.Books w) (hk : B.Knows w self) (hb' : B.Books w')
    (hi : w.now.Idles B.guarded w'.now) (hm : Mute w w') : S.Heard bad w₁ self w' := by
  have hv := h.verdicts.idles hb.toLedger hi hm
  exact ⟨hv,trans_of Core.Grows h.grows hm.toGrows,trans_of Core.Advances h.advances hi.advances,
    T.list_grows hb hb' hv hk hi.toStays hm.toGrows h.list⟩

theorem Trial.markNewer_rets (h : S.Heard bad w₁ self w) (hb : B.Books w) (hk : B.Knows w self)
    (hname : name ∈ B.origin.deps self) :
    wp (markNewer self name) (Rets fun _ w' => S.Heard bad w₁ self w' ∧ w.now.Advances w'.now) w := by
  obtain ⟨s,hs⟩ := h.list
  have hrests : Moves (B.Rests [self]) (markNewer self name) := rests_markNewer List.mem_cons_self hname
  obtain ⟨hb',hi⟩ := hrests w hb (by simpa using hk)
  have hrun : ∃ c : Core, markNewer self name w = (.ret (),{ w with now := c }) ∧ w.now.Mute c := by
    unfold markNewer
    simp only [core,run_bind_gets,hs]
    exact ⟨_,rfl,Core.mute_rawset_newer _ _⟩
  obtain ⟨c,hrun,hm⟩ := hrun
  rw [hrun] at hb' hi
  unfold wp
  rw [hrun]
  exact ⟨T.step h hb hk hb' hi ⟨hm,⟨[],rfl,by simp⟩⟩,hi.advances⟩

/-- A dependency that has nothing to be done is compared with the target. -/
theorem Trial.compareDep_ruled (h : S.Heard bad w₁ self w) (hb : B.Books w) (hf : S.Facts w) (ht : B.Target m self)
    (hnil : w.now.rawget self "status" = .nil) (hname : name ∈ B.origin.deps self) (hl : B.Leads w name dep)
    (hu : ¬Touched w dep) (htried : S.Tried w.now name) :
    wp (compareDep E self dep name b) (S.Ruled bad w₁ self name b) w := by
  have hk := ht.knows w
  have hks : ∀ o ∈ [self,dep], B.Knows w o := by
    intro o ho
    obtain rfl | rfl := List.mem_pair.mp ho
    · exact hk
    · exact Leads.knows hl
  have hrests : Moves (B.Rests [self,dep]) (do
      let s ← quietly (readTimestamp E self)
      let t ← quietly (readTimestamp E dep)
      lessThan s t) :=
    moves_bind (rests_readCached List.mem_cons_self (by decide) _) fun s =>
      moves_bind (rests_readCached (List.mem_cons_of_mem _ List.mem_cons_self) (by decide) _) fun t =>
        rests_lessThan s t
  have hmute : Moves Mute (do
      let s ← quietly (readTimestamp E self)
      let t ← quietly (readTimestamp E dep)
      lessThan s t) :=
    moves_bind (mute_quietly (mute_readCached (by decide) _ _)) fun s =>
      moves_bind (mute_quietly (mute_readCached (by decide) _ _)) fun t => mute_lessThan s t
  have hcmp := rets_of (T.compare_rets hb (T.pristine hf.inv) ht (hb.untouched T.rooted hnil) hl hu)
    (R := fun w' => (B.Books w' ∧ w.now.Idles B.guarded w'.now) ∧ Mute w w') ⟨hrests w hb hks,hmute w⟩
  rw [compareDep_eq]
  apply wp_bind_rets hcmp
  intro older w' h'
  obtain ⟨_,⟨hb',hi⟩,hm⟩ := h'
  have hheard := T.step h hb hk hb' hi hm
  have htried' := htried.mono hb.stays.next hi.advances
  cases older with
  | false => exact ⟨hheard,fun hw => ⟨hw,fun _ => htried'⟩⟩
  | true =>
    apply wp_bind_rets (T.markNewer_rets hheard hb' (hk.mono hi.next) hname)
    intro _ w'' h''
    exact ⟨h''.1,fun hw => ⟨hw,fun _ => htried'.mono hb'.stays.next h''.2⟩⟩

/-- The message of a target can be printed. -/
theorem Trial.attr_printable (hb : B.Books w) (hv : S.Verdicts bad w) (hk : B.Knows w o) :
    (w.now.attr o "errmsg").Printable := by
  cases hh : w.now.holder o "errmsg" with
  | none =>
    simp only [Core.attr,hh,hb.registry,T.unbound]
    split_ifs <;> exact .inl rfl
  | some p =>
    simp only [Core.attr,hh]
    exact hv.printable p (hb.linked.lt_next (hk.lt_next hb) (List.mem_of_find?_eq_some hh))

/-- A dependency fails. -/
theorem Trial.failDep_ruled (h : S.Heard bad w₁ self w) (hb : B.Books w) (hf : S.Facts w) (ht : B.Target m self)
    (hnil : w.now.rawget self "status" = .nil) (hname : name ∈ B.origin.deps self) (hl : B.Leads w name dep)
    (hfails : B.origin.Fails bad name) (htried : S.Tried w.now name) :
    wp (failDep E self dep name b) (S.Ruled bad w₁ self name b) w := by
  have hk := ht.knows w
  obtain ⟨k,hdep⟩ := Leads.name T.rooted hb hl
  have hattr : w.now.attr dep "name" = .str k := by rw [Core.attr_eq_rawget (by simp [hdep]),hdep]
  have hprint := T.attr_printable hb h.verdicts (Leads.knows hl)
  unfold failDep
  rw [wp_bind_core,hattr]
  apply wp_bind_rets (rets_concatText k w)
  intro text w' hw
  obtain ⟨rfl,rfl⟩ := hw
  have hmsg : Moves Mute (Presto.message (.str ("Error updating target '" ++ text ++ "':")) >>= fun _ =>
      messageIf (w'.now.attr dep "errmsg")) := moves_bind (mute_message _) fun _ => mute_messageIf _
  have hrests : Moves (B.Rests [self]) (Presto.message (.str ("Error updating target '" ++ text ++ "':")) >>= fun _ =>
      messageIf (w'.now.attr dep "errmsg")) := moves_bind (rests_message _) fun _ => rests_messageIf _
  have hrets : wp (Presto.message (.str ("Error updating target '" ++ text ++ "':")) >>= fun _ =>
      messageIf (w'.now.attr dep "errmsg")) (Rets fun _ w'' => w''.now = w'.now) w' := by
    unfold Presto.message
    rw [wp_bind_emit]
    obtain hv | ⟨s,hv⟩ | ⟨i,hv⟩ := hprint <;> rw [hv] <;> exact rfl
  rw [← wp_bind_assoc]
  apply wp_bind_rets (rets_of hrets (R := fun w'' => (B.Books w'' ∧ w'.now.Idles B.guarded w''.now) ∧ Mute w' w'')
    ⟨hrests w' hb (by simpa using hk),hmsg w'⟩)
  intro _ w'' hw
  obtain ⟨hsame,⟨hb',hi⟩,hm⟩ := hw
  have hheard := T.step h hb hk hb' hi hm
  have htried' := htried.mono hb.stays.next hi.advances
  have hk' := hk.mono hi.next
  rw [wp_ite]
  split_ifs with hkeep
  · obtain ⟨s,hs⟩ := hheard.verdicts.names self hk'
    have hattr' : w''.now.attr self "deps" = .names s := by rw [Core.attr_eq_rawget (by simp [hs]),hs]
    have hread : readDeps self w''.now = (.ret s,w''.now) := by simp [readDeps,run_bind_gets,hattr']
    unfold prune
    rw [wp_bind_assoc]
    apply wp_bind_ret (quietly_ret hread)
    rw [wp_bind_setField,wp_bind_setField]
    have hv := hheard.verdicts.drop hb' hk' hs hname hfails htried'
    have hsub : s.erase name ⊆ w''.now.deps self := by
      rw [Core.deps_of_rawget hs]
      exact Finset.erase_subset name s
    have hidle := Core.idles_dropDeps (K := B.guarded) (hk'.lt_next hb') hsub
    have hgrow : w''.now.Grows (w''.now.dropDeps self (s.erase name)) :=
      trans_of Core.Grows (Core.grows_rawset (by decide)) (Core.grows_rawset (by decide))
    refine ⟨⟨hv,trans_of Core.Grows hheard.grows hgrow,trans_of Core.Advances hheard.advances hidle.advances,?_⟩,
      fun hw => ⟨hw,fun _ => htried'.mono hb'.stays.next hidle.advances⟩⟩
    exact T.list_grows hb' (hb'.idles hidle) hv hk' hidle.toStays hgrow hheard.list
  · have hnil' : w''.now.rawget self "status" = .nil := by
      rw [hsame]
      exact hnil
    have hblamed : ∀ m, B.Target m self → B.Blamed bad w'' self := fun _ _ => .dep name hname hfails
    have hv := hheard.verdicts.mark hb'.toLedger hnil' hblamed fun hk => absurd hk hkeep
    have hmarked : (w''.now.rawset self "status" Status.error.toValue).rawget self "status" = Status.error.toValue := by
      simp
    refine ⟨⟨hv,trans_of Core.Grows hheard.grows (Core.grows_rawset (by decide))⟩,fun m ht => ?_⟩
    exact ⟨.dep ht.1 ht.2 hname hfails,.inr (.inr ⟨self,ht,hmarked⟩)⟩

/-- The status of a dependency is used. -/
theorem Trial.useDep_ruled {r : Except Value Value} (h : S.Heard bad w₁ self w') (hb : B.Books w') (hf : S.Facts w')
    (ht : B.Target m self) (hnil : w'.now.rawget self "status" = .nil) (hname : name ∈ B.origin.deps self)
    (hl : B.Leads w name dep) (ha : B.Along w w')
    (hans : ∀ v, r = .ok v → S.Answer w dep (.ret v) w')
    (herr : depStatus r = Status.error.toValue → B.origin.Fails bad name ∧ S.Tried w'.now name) :
    wp (useDep E self dep name b (depStatus r)) (S.Ruled bad w₁ self name b) w' := by
  have hk := ht.knows w'
  have hl' := Leads.along T.rooted hl ha
  unfold useDep
  rw [wp_ite,wp_ite,wp_ite,wp_ite]
  split_ifs with hu hn he hrun
  · have hr := depStatus_ok (s := .updated) (by simp) hu
    obtain ⟨⟨m',ht'⟩,hstatus⟩ := (hans _ hr).updated rfl
    have hreg : B.Target name dep := hl.resolve_right fun hlater => absurd ht'.lt (not_lt.mpr hlater.2.1)
    apply wp_bind_rets (T.markNewer_rets h hb hk hname)
    intro _ w'' hw
    have htried : S.Tried w'.now name := .inl (.built hreg hstatus)
    exact ⟨hw.1,fun hwait => ⟨hwait,fun _ => htried.mono hb.stays.next hw.2⟩⟩
  · have hr := depStatus_ok (s := .none) (by simp) hn
    have hidle := (hans _ hr).none rfl
    have hu : ¬Touched w' dep := by
      obtain htarget | ⟨_,hle,_⟩ := hl
      · intro htouch
        obtain ⟨i,hi⟩ := htouch
        exact hf.sure (dep,i) hi (T.still htarget (hidle.target name htarget).1)
      · exact hb.untouched_later T.rooted hle
    exact T.compareDep_ruled h hb hf ht hnil hname hl' hu (.inl (hidle.done hl))
  · obtain ⟨hfails,htried⟩ := herr he
    exact T.failDep_ruled h hb hf ht hnil hname hl' hfails htried
  · rw [wp_bind_core,wp_ite]
    split_ifs
    · exact h
    · exact ⟨h,fun hwait => by cases hwait⟩
  · exfalso
    cases r with
    | error e => exact he rfl
    | ok v =>
      obtain ⟨s,rfl⟩ := (hans v rfl).status v rfl
      cases s
      · exact hn rfl
      · exact hu rfl
      · exact hrun rfl
      · exact he rfl

/-- How a call of `bring_up_to_date` ends: only what fails is given up. -/
structure Convicts (S : B.Signs) (bad : ObjId → Prop) (w₀ : World) (o : ObjId) (r : Outcome Value Value) (w : World) :
    Prop where
  verdicts : S.Verdicts bad w
  grows : w₀.now.Grows w.now
  ends : r ≠ .diverge
  text : ∀ e, r = .raise e → ∃ s, e = .str s
  fails : (∃ e, r = .raise e) ∨ r = .ret Status.error.toValue → ∀ m, B.Leads w₀ m o →
    B.origin.Fails bad m ∧ S.Tried w.now m

omit T in
/-- A call that returns gives up what fails. -/
theorem Convicts.answer (hv : S.Verdicts bad w) (hg : w₀.now.Grows w.now) {v : Value}
    (hf : v = Status.error.toValue → ∀ m, B.Leads w₀ m o → B.origin.Fails bad m ∧ S.Tried w.now m) :
    S.Convicts bad w₀ o (.ret v) w where
  verdicts := hv
  grows := hg
  ends h := by cases h
  text _ h := by cases h
  fails h := by
    obtain ⟨e,he⟩ | he := h
    · cases he
    · exact hf (Outcome.ret.inj he)

omit T in
theorem Convicts.going (hv : S.Verdicts bad w) (hg : w₀.now.Grows w.now) {v : Value} (hne : v ≠ Status.error.toValue) :
    S.Convicts bad w₀ o (.ret v) w := .answer hv hg fun h => absurd h hne

/-- What is known of a dependency that has been asked for. -/
def Heeded (S : B.Signs) (bad : ObjId → Prop) (w : World) (dep : ObjId) :
    Outcome Value (Except Value Value) → World → Prop
  | .ret x,w' => (S.Verdicts bad w' ∧ w.now.Grows w'.now) ∧ (∀ e, x = .error e → ∃ s, e = .str s) ∧
      (depStatus x = Status.error.toValue → ∀ m, B.Leads w m dep → B.origin.Fails bad m ∧ S.Tried w'.now m)
  | _,_ => False

theorem Trial.visit_heeded {bring : ObjId → Engine Value} (hb : B.Books w) (hk : B.Knows w dep)
    (h : wp (bring dep) (fun r w' => B.Books w' ∧ S.Convicts bad w dep r w') w) :
    wp (visit E bring dep) (S.Heeded bad w dep) w := by
  have hcall : wp (callBring E bring dep) (fun r w' => B.Books w' ∧ S.Convicts bad w dep r w') w := by
    unfold callBring
    rw [wp_bind_core,method_of_knows hb.toLedger hk T.rooted.method]
    exact h
  apply wp_visit E hcall
  · intro v w' hw
    refine ⟨⟨hw.2.verdicts,hw.2.grows⟩,(fun e he => by cases he),fun he => ?_⟩
    exact hw.2.fails (.inr (congrArg Outcome.ret he))
  · intro e w' hw
    have hm := mute_emit (.failed dep) w'
    have hi : w'.now.Idles B.guarded w'.now := .refl _ _
    refine ⟨⟨hw.2.verdicts.idles hw.1.toLedger hi hm,hw.2.grows⟩,fun e' he => ?_,fun _ => hw.2.fails (.inl ⟨e,rfl⟩)⟩
    rw [← Except.error.inj he]
    exact hw.2.text e rfl
  · exact fun _ hw => absurd rfl hw.2.ends

/-- What is relied on in a call of `bring_up_to_date` besides the books and the facts. -/
structure Summoned (S : B.Signs) (bad : ObjId → Prop) (k : ℕ) (o : ObjId) (w : World) : Prop where
  verdicts : S.Verdicts bad w
  leads : ∃ m, B.Leads w m o
  blank : B.origin.next ≤ o → w.now.rawget o "status" = .nil ∧ w.now.rawget o "dep_status" = .nil
  room : height B.origin.Feeds (Finset.range B.origin.next) o < k

/-- One dependency is asked for. -/
theorem Trial.depStep_ruled {bring : ObjId → Engine Value} {k : ℕ}
    (hold : ∀ o w, Called B w o → wp (bring o) (B.Answered w o) w)
    (hsign : ∀ o w, Called B w o → S.Facts w → wp (bring o) (S.Answer w o) w)
    (hbring : ∀ o w, Called B w o → S.Facts w → S.Summoned bad k o w → wp (bring o) (S.Convicts bad w o) w)
    (hb : B.Books w₀) (hlt : self < w₀.now.next) (h : S.Sifting w₀ self [self] (name::l) b w)
    (hh : S.Heard bad w₁ self w) (hname : name ∈ B.origin.deps self)
    (hroom : height B.origin.Feeds (Finset.range B.origin.next) self ≤ k) :
    wp (depStep E bring self name b) (S.Ruled bad w₁ self name b) w := by
  have hself : self ∈ [self] := List.mem_cons_self
  have hk := h.1.1.knows self hself
  obtain ⟨m,ht⟩ := Knows.target hk hname
  have hmentioned : B.origin.Mentions name := .inr ⟨m,self,ht.1,ht.2,hname⟩
  obtain ⟨dep,c,hrun,hl,hblank⟩ := T.lookup h.1.1.books hmentioned
  have hlook : Moves (S.Bears [self]) (quietly (targetIndex name) : Engine Value) :=
    bears_quietly T.rooted (idles_targetIndex name) (bare_targetIndex name)
  have hs := keeps_sifting T.rooted hlook hself w h
  have hi := idles_targetIndex (K := B.guarded) name w.now
  have hmute := mute_quietly (mute_targetIndex name) w
  rw [quietly_ret hrun] at hs hmute
  rw [hrun] at hi
  have hheard := T.step hh h.1.1.books hk hs.1.1.books hi hmute
  unfold depStep
  apply wp_bind_ret (quietly_ret hrun)
  rw [wp_bind_asTable]
  have hcalled : Called B { w with now := c } dep := ⟨hs.1.1.books,Leads.knows hl,hs.1.1.room⟩
  have hsummoned : S.Summoned bad k dep { w with now := c } :=
    ⟨hheard.verdicts,⟨name,hl⟩,hblank,(height_leads hl ht hname).trans_le hroom⟩
  have hcall : wp (bring dep) (fun r w' => B.Books w' ∧ S.Convicts bad { w with now := c } dep r w')
      { w with now := c } :=
    wp_mono (wp_and (hold dep _ hcalled) (hbring dep _ hcalled hs.2.facts hsummoned)) fun _ _ hw => ⟨hw.1.books,hw.2⟩
  have hvisit := wp_and (wp_and (visit_answered hold hb hlt hs.1.1 hs.1.2 (h.1.1.depends hname hrun))
    (visit_sign T.rooted hsign hs.1.1.books hs.1.1.room hs.2.facts (.inl (Leads.knows hl))))
    (T.visit_heeded hs.1.1.books (Leads.knows hl) hcall)
  have hafter : ∀ {w'}, B.Books w' → B.Along { w with now := c } w' → S.Verdicts bad w' →
      Core.Grows c w'.now → S.Heard bad w₁ self w' := fun hb' ha hv hg =>
    ⟨hv,trans_of Core.Grows hheard.grows hg,trans_of Core.Advances hheard.advances ha.advances,
      T.list_grows hs.1.1.books hb' hv (hk.mono hi.next) ha.stays hg hheard.list⟩
  apply wp_bind_of hvisit
  · intro r w' hw
    obtain ⟨⟨⟨hv,_⟩,hans⟩,⟨hverdicts,hgrows⟩,_,hfails⟩ := hw
    have herr : depStatus r = Status.error.toValue → B.origin.Fails bad name ∧ S.Tried w'.now name :=
      fun he => hfails he name hl
    cases r with
    | error e =>
      exact T.useDep_ruled (hafter hv.books hans.2 hverdicts hgrows) hv.books hans.1 ht hv.unsettled hname hl hans.2
        (fun v hv => by cases hv) herr
    | ok v =>
      refine T.useDep_ruled (hafter hv.books hans.1.along hverdicts hgrows) hv.books hans.1.facts ht hv.unsettled hname
        hl hans.1.along ?_ herr
      intro v' hv'
      cases hv'
      exact hans.1
  · exact fun _ _ hw => hw.2.elim
  · exact fun _ hw => hw.2.elim

/-- A job that is started for `self` may fail at once. -/
theorem Trial.jobsStart_convicts (h : S.Heard bad w₀ self w) (hb : B.Books w) (hk : B.Knows w self) (hf : S.Facts w)
    (hnil : w.now.rawget self "status" = .nil) (hc : (w.now.attr self "command").truthy) (hsure : ¬S.Sure self)
    (hdone : ∀ n ∈ B.origin.deps self, S.done w.now n) : wp (jobsStart E self) (S.Convicts bad w₀ self) w := by
  obtain ⟨f,hfn,_⟩ := hk.callable hb.toLedger T.rooted.commands hc
  obtain ⟨m,ht⟩ : ∃ m, B.Target m self := hk.registered_of_command hb.toLedger hfn
  obtain ⟨k,hraw,hname,_⟩ := Target.name T.rooted hb ht
  have hattr : w.now.attr self "name" = .str k := by rw [Core.attr_eq_rawget (by simp [hraw]),hraw]
  have hcommand : B.origin.attr self "command" = .fn f := by
    rw [← Ledger.attr_command hb.toLedger T.rooted ht]
    exact hfn
  apply wp_jobsStart
  · intro hnone
    have hno := hnone f hfn
    rw [hattr] at hno
    cases hno
  · intro f' hf' _
    obtain rfl := Value.fn.inj (hfn.symm.trans hf')
    unfold startJob
    rw [wp_bind_emit]
    obtain ⟨signal,c,hres,hi,_⟩ := resumeCommand_ret (E := E) (B := B) f (w.now.attr self "name")
      w.now.nextJob.pos 0 w.now.nextJob
    apply wp_bind_ret (quietly_ret hres)
    have hmid : c = (resumeCommand E f (w.now.attr self "name") w.now.nextJob.pos 0 w.now.nextJob).2 := by rw [hres]
    have hnext : w.now.Mute w.now.nextJob := Core.mute_of_heap rfl rfl
    have hmute : Mute w ⟨c,(.resuming w.now.nextJob.pos,w.now.nextJob)::(launched w self).trace⟩ := by
      refine ⟨?_,[(.resuming w.now.nextJob.pos,w.now.nextJob),(.start self w.now.nextJob.pos,w.now.nextJob)],rfl,by simp⟩
      rw [hmid]
      exact trans_of Core.Mute hnext (mute_resumeCommand f _ _ 0 w.now.nextJob)
    have hadv : w.now.Advances c := hi.advances
    have hverdicts : S.Verdicts bad ⟨c,(.resuming w.now.nextJob.pos,w.now.nextJob)::(launched w self).trace⟩ :=
      h.verdicts.move hb.toLedger hadv
        (fun _ o ht hs => (hi.status o (ht.lt.trans_le hb.stays.next)).symm.trans hs) hmute
    have hledger := ((hb.toLedger.start self).emit (e := .resuming w.now.nextJob.pos) id).idles hi
    have hraised : ∀ v, signal = .raised v → v.Printable ∧ (∀ m, B.Target m self → B.Blamed bad
        ⟨c,(.resuming w.now.nextJob.pos,w.now.nextJob)::(launched w self).trace⟩ self) ∧
        (E.flags.keepGoing = true → ∀ k ∈ B.origin.deps self, S.Tried c k) := by
      intro v hv
      subst hv
      rw [hattr] at hres
      have hanswer : B.origin.CanAnswer E self (.raised v) :=
        ⟨m,f,k,_,0,w.now.nextJob,c,ht.1,ht.2,hcommand,hname,(T.pristine hf.inv).reached,hres⟩
      have hold : ¬B.origin.Fresh false self := fun hfresh => hsure (T.fresh ht hfresh)
      refine ⟨T.spoken.raised self v hanswer,
        fun _ _ => .command ⟨w.now.nextJob.pos,List.mem_cons_self⟩ ?_ hold (T.judged.raised self v hanswer),
        fun _ n hn => .inl ((hdone n hn).mono hb.stays.next hadv)⟩
      rw [hcommand]
      rfl
    have hlt := hk.lt_next hb
    apply wp_bind_rets (hverdicts.recordFirst hledger ((hi.status self hlt).trans hnil) hraised)
    intro _ w' hw
    obtain ⟨⟨hv,hgrows⟩,hstatus,_⟩ := hw
    rw [wp_bind_emit,wp_bind_core]
    have hown : w'.now.attr self "status" = signal.status.toValue := by
      rw [Core.attr_eq_rawget (by rw [hstatus]; exact toValue_ne_nil _),hstatus]
    have hv' := hv.emit (.processed w.now.nextJob.pos)
    refine .answer hv' (trans_of Core.Grows h.grows (trans_of Core.Grows hmute.toGrows hgrows)) fun he n hl => ?_
    have herr : w'.now.rawget self "status" = Status.error.toValue := by
      rw [hstatus,← hown]
      exact he
    have hn : B.Target n self := hl.resolve_right fun hlater => absurd ht.lt (not_lt.mpr hlater.2.1)
    exact ⟨(hv'.blamed n self hn herr).fails hn,.inr (.inr ⟨self,hn,herr⟩)⟩

/-- A target that must be built and has no rule is given up. -/
theorem Trial.noRule_convicts (h : S.Heard bad w₀ self w) (hb : B.Books w) (hl : B.Leads w m self)
    (hnil : w.now.rawget self "status" = .nil) (hblamed : ∀ m, B.Target m self → B.Blamed bad w self)
    (hsource : ∀ m, B.Leads w₀ m self → B.origin.registry m = .nil → B.origin.files.exists m = false)
    (htried : E.flags.keepGoing = true → ∀ k ∈ B.origin.deps self, S.Tried w.now k) :
    wp (noRule self) (S.Convicts bad w₀ self) w := by
  obtain ⟨hv,hfails⟩ := h.verdicts.mark_fails hb hnil hblamed hsource htried
  obtain ⟨k,hk⟩ := Leads.name T.rooted hb hl
  have hlt := (Leads.knows hl).lt_next hb
  have hattr : (w.now.rawset self "status" Status.error.toValue).attr self "name" = .str k := by
    have hraw : (w.now.rawset self "status" Status.error.toValue).rawget self "name" = .str k := by simp [hk]
    rw [Core.attr_eq_rawget (by rw [hraw]; simp),hraw]
  unfold noRule
  rw [Presto.markError,wp_bind_assoc,setStatus,wp_bind_setField,wp_bind_emit,wp_bind_core,hattr]
  apply wp_bind_rets (rets_concatText k _)
  intro text w' hw
  obtain ⟨rfl,rfl⟩ := hw
  rw [wp_bind_setField]
  have hb' : B.Ledger { w with
      now := w.now.rawset self "status" Status.error.toValue
      trace := (.marked self,w.now.rawset self "status" Status.error.toValue)::w.trace } := by
    have hadv : w.now.Advances (w.now.rawset self "status" Status.error.toValue) :=
      Core.advances_rawset (by rw [hnil]; exact .start .error (by simp))
    exact (hb.toLedger.move (Core.stays_status hlt _) (hb.accounts.settle hnil (.inr rfl)) hadv le_rfl).emit id
  have hnote := hv.note (o := self) hb' (v := .str ("No rule to make target '" ++ text ++ "'")) (.inr (.inl ⟨_,rfl⟩))
  have hgrows : w.now.Grows ((w.now.rawset self "status" Status.error.toValue).rawset self "errmsg"
      (.str ("No rule to make target '" ++ text ++ "'"))) :=
    trans_of Core.Grows (Core.grows_rawset (by decide)) (Core.grows_rawset (by decide))
  refine ⟨hnote,trans_of Core.Grows h.grows hgrows,by simp,?_,fun _ m hl => ⟨(hfails m hl).1,?_⟩⟩
  · intro e he
    exact ⟨_,(Outcome.raise.inj he).symm⟩
  · exact (hfails m hl).2.mono hb'.stays.next (Core.advances_note _ _)

omit T in
/-- The failure of a dependency that is found is remembered in the target itself. -/
theorem Facts.failed_own (h : S.Facts w) (hr : B.Rooted) (hb : B.Books w) (hk : B.Knows w o)
    (hs : w.now.attr o "dep_status" = Status.error.toValue) : w.now.rawget o "dep_status" = Status.error.toValue := by
  cases hh : w.now.holder o "dep_status" with
  | none =>
    exfalso
    simp only [Core.attr,hh,hb.registry] at hs
    obtain hn | ⟨q,hq,_⟩ := B.ready.sound.bound "dep_status" rfl
    · rw [hn] at hs
      split_ifs at hs
      all_goals cases hs
    · rw [hq] at hs
      split_ifs at hs
      all_goals cases hs
  | some p =>
    simp only [Core.attr,hh] at hs
    obtain rfl | hp := List.mem_cons.mp (List.mem_of_find?_eq_some hh)
    · exact hs
    · exfalso
      obtain ⟨_,⟨m,hm,ht,hchain⟩ | hblank⟩ := hk.tables hb.toLedger
      · rw [hchain] at hp
        have hlt := B.ready.sound.linked.lt_next (B.ready.sound.registered hm) (List.mem_cons_of_mem _ hp)
        have hnil := (h.clear p hlt (hr.roots m o ⟨hm,ht⟩ p hp)).2
        exact toValue_ne_nil .error (hs.symm.trans hnil)
      · rw [hblank.chain] at hp
        cases hp

/-- What is left of the work on `o` after some of the dependencies. -/
structure Weighing (S : B.Signs) (bad : ObjId → Prop) (w₀ : World) (o : ObjId) (l : List String) (b : Pass)
    (w : World) : Prop where
  heard : S.Heard bad w₀ o w
  tried : E.flags.keepGoing = true → b.mustWait = false → ∀ n ∈ B.origin.deps o, n ∉ l → S.Tried w.now n
  absent : b.mustBuild = true → ∀ m, B.Leads w₀ m o → B.origin.registry m = .nil → B.origin.files.exists m = false
  clean : B.origin.next ≤ o → w.now.rawget o "dep_status" = .nil

/-- What follows the loop over the dependencies. -/
theorem Trial.finishTargetUpdate_convicts (hlead : B.Leads w₀ m self)
    (h : B.Opened w₀ self [self] w ∨ B.Brought w₀ self w ∧ b.mustWait = true)
    (hs : S.Sifted w₀ self l b w) (hl : b.mustWait = false → l = [])
    (hw : (S.Verdicts bad w ∧ w₀.now.Grows w.now) ∧ (b.mustWait = false → S.Weighing bad w₀ self [] b w)) :
    wp (finishTargetUpdate E self b) (S.Convicts bad w₀ self) w := by
  have hself : self ∈ [self] := List.mem_cons_self
  have hopen : b.mustWait ≠ true → B.Opened w₀ self [self] w := fun hne => h.resolve_right fun hw => hne hw.2
  have hlead' := Leads.along T.rooted hlead hs.along
  have hk := Leads.knows hlead'
  unfold finishTargetUpdate
  rw [wp_bind_core,wp_ite,wp_ite,wp_ite,wp_ite,wp_ite]
  split_ifs with hwait hd hm hq hc
  · exact .going hw.1.1 hw.1.2 (by simp [Status.toValue])
  · have hweigh := hw.2 (by simpa using hwait)
    have ho := hopen hwait
    have hraw := hs.facts.failed_own T.rooted ho.books hk hd
    have hblamed : ∀ m, B.Target m self → B.Blamed bad w self := by
      intro m ht
      obtain ⟨k,hk,hfails⟩ := hweigh.heard.verdicts.failed m self ht hraw
      exact .dep k hk hfails
    have hsource : ∀ m, B.Leads w₀ m self → B.origin.registry m = .nil → B.origin.files.exists m = false := by
      intro m hl hnil
      obtain ht | ⟨_,hle,_⟩ := hl
      · exact absurd (ht.1.symm.trans hnil) (by simp)
      · exact absurd (hraw.symm.trans (hweigh.clean hle)) (toValue_ne_nil _)
    obtain ⟨hv,hfails⟩ := hweigh.heard.verdicts.mark_fails ho.books ho.unsettled hblamed hsource
      fun hkeep n hn => hweigh.tried hkeep (by simpa using hwait) n hn (by simp)
    exact .answer hv (trans_of Core.Grows hweigh.heard.grows (Core.grows_rawset (by decide))) fun _ => hfails
  · exact absurd hq (by simp [T.question])
  · have hweigh := hw.2 (by simpa using hwait)
    have ho := hopen hwait
    have hno : ¬S.Sure self := fun h => absurd (hs.sure h).1 (by simp [hm])
    have hdone : ∀ n ∈ B.origin.deps self, S.done w.now n := by
      intro n hn
      have hw : b.mustWait = false := by simpa using hwait
      refine (hs.deps hw (fun he => hd ?_) n hn (by rw [hl hw]; simp)).1
      rw [Core.attr_eq_rawget (by rw [he]; exact toValue_ne_nil _),he]
    exact T.jobsStart_convicts hweigh.heard ho.books hk hs.facts ho.unsettled hc hno hdone
  · have hweigh := hw.2 (by simpa using hwait)
    have ho := hopen hwait
    have hno : ¬S.Sure self := fun h => absurd (hs.sure h).1 (by simp [hm])
    have hun : unbuildable E self w = (.ret true,w) := by
      unfold unbuildable
      rw [if_neg (by simp [T.always])]
      rfl
    apply wp_bind_ret hun
    refine T.noRule_convicts hweigh.heard ho.books hlead' ho.unsettled (fun m ht => ?_) (hweigh.absent hm)
      fun hkeep n hn => hweigh.tried hkeep (by simpa using hwait) n hn (by simp)
    refine .rule (fun hfresh => hno (T.fresh ht hfresh)) ?_
    rw [← Ledger.attr_command ho.books.toLedger T.rooted ht]
    simpa using hc
  · exact .going hw.1.1 hw.1.2 (by simp [Status.toValue])

/-- The loop over the dependencies begins. -/
theorem Trial.visitStart_weighing (hb : B.Books w) (hf : S.Facts w) {k : ℕ} (h : S.Summoned bad k self w)
    (hnil : w.now.rawget self "status" = .nil) :
    wp (visitStart E self) (Rets fun p w' => S.Weighing bad w self p.2 ⟨p.1,false⟩ w') w := by
  obtain ⟨m,hl⟩ := h.leads
  have hk := Leads.knows hl
  have hrests : Moves (B.Rests [self]) (visitStart E self) := by
    refine moves_bind (rests_ensureDepsNewer List.mem_cons_self) fun _ => ?_
    refine moves_bind (rests_missing List.mem_cons_self) fun _ => ?_
    refine moves_bind (rests_quietly (idles_readDeps self)) fun deps => ?_
    exact moves_bind (rests_quietly (idles_enumerate E deps)) fun order => moves_pure _
  apply wp_mono (rets_of (T.visitStart_rets hb hf h.verdicts hl hnil)
    (R := fun w' => (B.Books w' ∧ w.now.Idles B.guarded w'.now) ∧ Mute w w')
    ⟨hrests w hb (by simpa using hk),mute_visitStart self w⟩)
  intro r w' hw
  apply hw.imp
  intro p hp
  obtain ⟨⟨⟨⟨hv,hg⟩,hlist⟩,hall,habsent⟩,⟨_,hi⟩,hm⟩ := hp
  refine ⟨⟨hv,hg,hi.advances,hlist⟩,fun hkeep _ n hn hno => ?_,habsent,fun hle => ?_⟩
  · obtain ⟨m',ht⟩ := Knows.target hk hn
    exact hv.pruned hkeep m' self ht n hn fun hmem => hno ((hall n).mpr hmem)
  · rw [hm.kept self (hk.lt_next hb) _ (by decide)]
    exact (h.blank hle).2

omit T in
/-- One more dependency has been dealt with. -/
theorem Weighing.next {b' : Pass} (h : S.Weighing bad w₀ self (name::l) b w) (hb : B.Books w) (ht : B.Target m self)
    (hr : S.Ruled bad w self name b (.ret (.next b')) w') : S.Weighing bad w₀ self l b' w' where
  heard := ⟨hr.1.verdicts,trans_of Core.Grows h.heard.grows hr.1.grows,
    trans_of Core.Advances h.heard.advances hr.1.advances,hr.1.list⟩
  tried hkeep hwait n hn hl := by
    obtain ⟨hw,htried⟩ := hr.2 hwait
    by_cases he : n = name
    · subst he
      exact htried hkeep
    · exact (h.tried hkeep hw n hn (by simp [he,hl])).mono hb.stays.next hr.1.advances
  absent _ n hl hnil := by
    obtain hn | ⟨_,hle,_⟩ := hl
    · exact absurd (hn.1.symm.trans hnil) (by simp)
    · exact absurd ht.lt (not_lt.mpr hle)
  clean hle := absurd ht.lt (not_lt.mpr hle)

/-- In every call of `bring_up_to_date` only what fails is given up. -/
theorem Trial.bringUpToDate_convicts (k : ℕ) (h : Called B w self) (hf : S.Facts w) (hs : S.Summoned bad k self w) :
    wp (bringUpToDate E k self) (S.Convicts bad w self) w := by
  induction k generalizing self w with
  | zero => exact absurd hs.room (Nat.not_lt_zero _)
  | succ k ih =>
    have hlt := h.knows.lt_next h.books
    obtain ⟨m,hlead⟩ := hs.leads
    apply wp_bringUpToDate E (fun l b w' => (Signs.Sifting S w self [self] l b w' ∧ S.Weighing bad w self l b w') ∧
        ∀ n ∈ l, n ∈ B.origin.deps self)
      fun b w' => ∃ l, (B.Opened w self [self] w' ∨ B.Brought w self w' ∧ b.mustWait = true) ∧
        Signs.Sifted S w self l b w' ∧ (b.mustWait = false → l = []) ∧
        (S.Verdicts bad w' ∧ w.now.Grows w'.now) ∧ (b.mustWait = false → S.Weighing bad w self [] b w')
    · intro _
      refine .answer hs.verdicts (refl_of Core.Grows w.now) fun hattr n hl => ?_
      have hown := hf.status_own T.rooted h.books h.knows hattr
      obtain ht | ⟨_,hle,_⟩ := hl
      · exact ⟨(hs.verdicts.blamed n self ht hown).fails ht,.inr (.inr ⟨self,ht,hown⟩)⟩
      · exact absurd (hown.symm.trans (hs.blank hle).1) (toValue_ne_nil _)
    · intro hsettled
      have hnil := h.books.accounts.unsettled hlt hsettled
      have hopen : Signs.Starting S w self w := ⟨⟨.refl h.books self,h.room,hnil,by simpa using h.knows⟩,hf,.refl B w⟩
      apply wp_mono (wp_and (visitStart_sign T.rooted hopen) (T.visitStart_weighing h.books hf hs hnil))
      intro r w' hw
      obtain ⟨⟨_,hp⟩,hweigh⟩ := hw
      cases r with
      | ret p =>
        obtain ⟨hfirst,hsub,_⟩ := hp p rfl
        exact ⟨⟨hfirst,hweigh⟩,hsub⟩
      | raise e => exact hweigh.elim
      | diverge => exact hweigh.elim
    · intro name l b w' hw
      obtain ⟨⟨hw',hweigh⟩,hl⟩ := hw
      have hname := hl name List.mem_cons_self
      obtain ⟨m',ht⟩ := Knows.target (hw'.1.1.knows self List.mem_cons_self) hname
      have hold : ∀ o w, Called B w o → wp (bringUpToDate E k o) (B.Answered w o) w :=
        fun o w hc => bringUpToDate_answered k hc
      have hsign : ∀ o w, Called B w o → S.Facts w → wp (bringUpToDate E k o) (S.Answer w o) w :=
        fun o w hc hf => bringUpToDate_sign T.rooted k hc hf
      have hhere : S.Heard bad w' self w' :=
        ⟨hweigh.heard.verdicts,refl_of Core.Grows _,refl_of Core.Advances _,hweigh.heard.list⟩
      apply wp_mono (wp_and (wp_and (depStep_answered hold h.books hlt hw'.1 hname)
        (depStep_sign T.rooted hold hsign h.books hlt hw' hname))
        (T.depStep_ruled hold hsign (fun o w hc hf hs => ih hc hf hs) h.books hlt hw' hhere hname
          (Nat.le_of_lt_succ hs.room)))
      intro r w'' hw
      obtain ⟨⟨hst,hsift⟩,hruled⟩ := hw
      cases r with
      | ret x =>
        cases x with
        | next b' =>
          refine ⟨⟨⟨hst,hsift⟩,hweigh.next hw'.1.1.books ht hruled⟩,fun m hm => ?_⟩
          exact hl m (List.mem_cons_of_mem _ hm)
        | stop b' =>
          have hno : b'.mustWait ≠ false := by rw [hsift.2]; simp
          exact ⟨l,.inr ⟨hst.1,hst.2.1⟩,hsift.1,fun hw => absurd hw hno,
            ⟨hruled.verdicts,trans_of Core.Grows hweigh.heard.grows hruled.grows⟩,fun hw => absurd hw hno⟩
        | leave v =>
          refine .answer hruled.1.1 (trans_of Core.Grows hweigh.heard.grows hruled.1.2) fun _ n hn => ?_
          exact hruled.2 n (hn.resolve_right fun hlater => absurd ht.lt (not_lt.mpr hlater.2.1))
      | raise e => exact hruled.elim
      | diverge => exact hruled.elim
    · exact fun b w' hw' => ⟨[],.inl hw'.1.1.1.1,hw'.1.1.2,fun _ => rfl,
        ⟨hw'.1.2.heard.verdicts,hw'.1.2.heard.grows⟩,fun _ => hw'.1.2⟩
    · intro b w' hw
      obtain ⟨l,ho,hsift,hl,hweigh⟩ := hw
      exact T.finishTargetUpdate_convicts hlead ho hsift hl hweigh

end

end Build.Signs
end Presto

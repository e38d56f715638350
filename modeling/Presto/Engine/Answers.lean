import Presto.Engine.Starts

/-! The answers of `bring_up_to_date` and what they are signs of, by induction on the calls. -/
namespace Presto
open Program Traced

namespace Build
variable {E : Env} {B : Build E}

/-- Statuses only move one way, and what has failed has failed. -/
structure Along (B : Build E) (w w' : World) : Prop where
  stays : w.now.Stays B.guarded w'.now
  advances : w.now.Advances w'.now
  failed : ∀ q < w.now.next, w.now.rawget q "dep_status" = Status.error.toValue →
    w'.now.rawget q "dep_status" = Status.error.toValue

instance : IsPreorder World B.Along where
  refl w := ⟨.refl _ _,refl_of Core.Advances w.now,fun _ _ h => h⟩
  trans _ _ _ h h' := ⟨h.stays.trans h'.stays,trans_of Core.Advances h.advances h'.advances,
    fun q hq hf => h'.failed q (hq.trans_le h.stays.next) (h.failed q hq hf)⟩

theorem Along.refl (B : Build E) (w : World) : B.Along w w := refl_of B.Along w

variable {w w' w'' : World} {o : ObjId}

theorem Along.trans (h : B.Along w w') (h' : B.Along w' w'') : B.Along w w'' := trans_of B.Along h h'

theorem Along.of_idles (hr : B.Rooted) (hi : w.now.Idles B.guarded w'.now)
    (hf : w.now.Firm B.guarded w'.now) : B.Along w w' :=
  ⟨hi.toStays,hi.advances,fun q hq he => (hf.failed hr.failed q hq).trans he⟩

/-- A status is set for the first time. -/
theorem Along.mark {s : Status} (hs : s ≠ .none) (hlt : o < w.now.next)
    (hnil : w.now.rawget o "status" = .nil) (hnow : w'.now = w.now.rawset o "status" s.toValue) :
    B.Along w w' := by
  refine ⟨?_,?_,fun q _ he => ?_⟩
  · rw [hnow]
    exact Core.stays_status hlt _
  · rw [hnow]
    exact Core.advances_rawset (by rw [hnil]; exact .start s hs)
  · rw [hnow]
    simpa using he

theorem Along.of_heap (hheap : w'.now.heap = w.now.heap) (hnext : w'.now.next = w.now.next)
    (hreg : w'.now.registry = w.now.registry) (hdef : w'.now.defined = w.now.defined) : B.Along w w' := by
  refine ⟨Core.stays_of_heap hheap hnext hreg hdef,⟨hnext.ge,fun q _ => ?_⟩,fun q _ he => ?_⟩
  · rw [Core.rawget,Core.rawget,hheap]
    exact .same _
  · rw [Core.rawget,hheap]
    exact he

/-- The first resume of a job is recorded. -/
theorem along_recordFirst (hlt : o < w.now.next) (hnil : w.now.rawget o "status" = .nil) (i : ℕ) (j : Job)
    (signal : Signal) : wp (recordFirst o i j signal) (fun _ w' => B.Along w w') w := by
  have hmark : B.Along w { w with now := w.now.rawset o "status" signal.status.toValue } :=
    .mark (by cases signal <;> simp [Signal.status]) hlt hnil rfl
  unfold recordFirst
  rw [wp_bind_modify_quietly]
  cases signal with
  | yielded v => exact hmark.trans (.of_heap rfl rfl rfl rfl)
  | finished => exact hmark
  | raised v =>
    refine hmark.trans ⟨?_,⟨le_rfl,fun q _ => ?_⟩,fun q _ he => ?_⟩
    · refine (Core.idles_rawset_of_mem (K := B.guarded) (v := v) (o := o)
        (c := w.now.rawset o "status" Status.error.toValue) hlt
        (show "errmsg" ∈ ["exists","timestamp","errmsg","dep_status"] by decide)).toStays
    · have hsame : (w.now.recordStart o i j (.raised v)).rawget q "status" =
          (w.now.rawset o "status" Status.error.toValue).rawget q "status" := by
        simp [Core.recordStart,Signal.status]
      change StatusStep _ ((w.now.recordStart o i j (.raised v)).rawget q "status")
      rw [hsame]
      exact .same _
    · have hsame : (w.now.recordStart o i j (.raised v)).rawget q "dep_status" =
          (w.now.rawset o "status" Status.error.toValue).rawget q "dep_status" := by
        simp [Core.recordStart,Signal.status]
      exact hsame.trans he

namespace Signs
variable {S : B.Signs}

/-- The job of a target is started when all its dependencies are done. -/
theorem Facts.jobsStart (h : S.Facts w) (hr : B.Rooted) (hb : B.Books w) {m : String} (ht : B.Target m o)
    (hnil : w.now.rawget o "status" = .nil) (hsure : ¬S.Sure o)
    (hdone : ∀ n ∈ B.origin.deps o, S.done w.now n) :
    wp (jobsStart E o) (fun _ w' => S.Facts w' ∧ B.Along w w') w := by
  have hlt : o < w.now.next := ht.lt.trans_le hb.stays.next
  have hstart := h.start hb.toLedger hsure hdone
  have hl := hb.toLedger.start o
  have halong : B.Along w (launched w o) := .of_heap rfl rfl rfl rfl
  apply wp_jobsStart
  · exact fun _ _ => ⟨hstart,halong⟩
  · intro f hf _
    have hrun := Ledger.runs hb.toLedger hr ht hf
    unfold startJob
    rw [wp_bind_emit]
    obtain ⟨signal,c,hres,hi,_⟩ := resumeCommand_ret (E := E) (B := B) f (w.now.attr o "name")
      w.now.nextJob.pos 0 w.now.nextJob
    apply wp_bind_ret (quietly_ret hres)
    have hl' := hl.emit (e := .resuming w.now.nextJob.pos) id
    have hmem : (o,w.now.nextJob.pos) ∈
        starts ⟨w.now.nextJob,(.resuming w.now.nextJob.pos,w.now.nextJob)::(launched w o).trace⟩ := List.mem_cons_self
    obtain ⟨hfacts,hgood⟩ := (hstart.emit (e := .resuming w.now.nextJob.pos) id).resume hl' hrun hmem
      (mem_resumed_first hf) (by change w.now.rawget o "status" ≠ _; rw [hnil]; simp [Status.toValue]) hres
    have hnil' : c.rawget o "status" = .nil := (hi.status o hlt).trans hnil
    have hdone' : ∀ n ∈ B.origin.deps o, S.done c n := fun n hn =>
      (hdone n hn).mono hb.stays.next (show w.now.Advances c from hi.advances)
    have hlt' : o < c.next := hlt.trans_le hi.next
    have hrec := wp_and (hfacts.recordFirst hr (hl'.idles hi) ht hnil' hdone' hmem
      (j := ⟨f,w.now.attr o "name",1,.nil⟩) hrun hgood)
      (along_recordFirst (B := B) (w := ⟨c,(.resuming w.now.nextJob.pos,w.now.nextJob)::(launched w o).trace⟩)
        hlt' hnil' _ _ signal)
    have hmid : B.Along w ⟨c,(.resuming w.now.nextJob.pos,w.now.nextJob)::(launched w o).trace⟩ := by
      refine halong.trans ⟨hi.toStays,hi.advances,fun q hq he => ?_⟩
      exact (rawget_of_resume hres q "dep_status").trans he
    apply wp_bind_of hrec
    · rintro _ w' ⟨hf',ha⟩
      exact ⟨hf'.emit id,hmid.trans (ha.trans (.of_heap rfl rfl rfl rfl))⟩
    · exact fun _ w' hw => ⟨hw.1,hmid.trans hw.2⟩
    · exact fun w' hw => ⟨hw.1,hmid.trans hw.2⟩

/-- `o` has nothing to be done. -/
structure Idle (S : B.Signs) (w₀ : World) (o : ObjId) (w : World) : Prop where
  target : ∀ m, B.Target m o → S.Still o ∧ ∀ n ∈ B.origin.deps o, S.done w.now n
  source : ∀ m, B.Leads w₀ m o → B.origin.registry m = .nil → E.flags.alwaysMake = false → S.Source m

/-- What the answer `r` of `bring_up_to_date` for `o` is a sign of. -/
structure Answer (S : B.Signs) (w₀ : World) (o : ObjId) (r : Outcome Value Value) (w : World) : Prop where
  facts : S.Facts w
  along : B.Along w₀ w
  none : r = .ret Status.none.toValue → S.Idle w₀ o w
  updated : r = .ret Status.updated.toValue → (∃ m, B.Target m o) ∧
    w.now.rawget o "status" = Status.updated.toValue
  running : r = .ret Status.running.toValue → ∃ m, B.Target m o
  sure : S.Sure o → r ≠ .ret Status.updated.toValue ∧ r ≠ .ret Status.running.toValue
  status : ∀ v, r = .ret v → ∃ s : Status, v = s.toValue

theorem Answer.ended {w₀ : World} (hf : S.Facts w) (ha : B.Along w₀ w) {r : Outcome Value Value}
    (hr : r = .ret Status.error.toValue ∨ ∀ v, r ≠ .ret v) : S.Answer w₀ o r w := by
  refine ⟨hf,ha,?_,?_,?_,fun _ => ⟨?_,?_⟩,fun v hv => ⟨.error,?_⟩⟩
  on_goal 6 => exact hr.elim (fun h => Outcome.ret.inj (hv.symm.trans h)) fun h => absurd hv (h v)
  all_goals rintro rfl
  all_goals exact hr.elim (fun h => by cases h) fun h => absurd rfl (h _)

/-- What is known after some of the dependencies; `l` are those that are still to come. -/
structure Sifted (S : B.Signs) (w₀ : World) (o : ObjId) (l : List String) (b : Pass) (w : World) :
    Prop where
  facts : S.Facts w
  along : B.Along w₀ w
  present : b.mustBuild = false → E.flags.alwaysMake = false ∧ (∀ m, B.Target m o → S.Present o) ∧
    ∀ m, B.Leads w₀ m o → B.origin.registry m = .nil → S.Source m
  deps : b.mustWait = false → w.now.rawget o "dep_status" ≠ Status.error.toValue →
    ∀ n ∈ B.origin.deps o, n ∉ l → S.done w.now n ∧ (b.mustBuild = false → S.Clean o n)
  waits : b.mustWait = true → ∃ m, B.Target m o
  sure : S.Sure o → b.mustBuild = false ∧ b.mustWait = false

variable {w₀ : World} {self dep : ObjId} {ks : List ObjId} {l : List String} {b : Pass} {α : Type}

theorem Sifted.step (h : S.Sifted w₀ self l b w) (hb : B.Books w) (hself : self < w.now.next)
    (hf : S.Facts w') (ha : B.Along w w') : S.Sifted w₀ self l b w' where
  facts := hf
  along := h.along.trans ha
  present := h.present
  deps hwait herr n hn hl := by
    obtain ⟨hd,hc⟩ := h.deps hwait (fun he => herr (ha.failed self hself he)) n hn hl
    exact ⟨hd.mono hb.stays.next ha.advances,hc⟩
  waits := h.waits
  sure := h.sure

/-- What the loop over the dependencies knows. -/
def Sifting (S : B.Signs) (w₀ : World) (self : ObjId) (ks : List ObjId) (l : List String) (b : Pass)
    (w : World) : Prop := (B.Opened w₀ self ks w ∧ B.Waiting b w) ∧ S.Sifted w₀ self l b w

theorem keeps_sifting (hr : B.Rooted) {m : Engine α} (hm : Moves (S.Bears ks) m) (hself : self ∈ ks) :
    Keeps (S.Sifting w₀ self ks l b) m := by
  rintro w ⟨⟨ho,hw⟩,hs⟩
  obtain ⟨⟨hb,hf⟩,hi,hfirm⟩ := hm w ho.books ho.knows hs.facts
  refine ⟨⟨ho.idles hself hb hi,fun hM hmw => by rw [hi.count]; exact hw hM hmw⟩,?_⟩
  exact hs.step ho.books (ho.lt_next hself) hf (.of_idles hr hi hfirm)

/-- How a part of the work on `self` ends: it goes on, or it answers that `self` has failed. -/
def SiftStep (S : B.Signs) (w₀ : World) (self : ObjId) (l : List String) :
    Outcome Value (Step Pass Value) → World → Prop
  | .ret (.next b),w => S.Sifted w₀ self l b w
  | .ret (.stop b),w => S.Sifted w₀ self l b w ∧ b.mustWait = true
  | .ret (.leave v),w => v = Status.error.toValue ∧ S.Facts w ∧ B.Along w₀ w
  | .raise _,w => S.Facts w ∧ B.Along w₀ w
  | .diverge,w => S.Facts w ∧ B.Along w₀ w

theorem Sifted.ended (h : S.Sifted w₀ self l b w) {l' : List String} {o : Outcome Value (Step Pass Value)}
    (ho : ∀ x, o ≠ .ret x) : S.SiftStep w₀ self l' o w := by
  cases o with
  | ret x => exact absurd rfl (ho x)
  | raise e => exact ⟨h.facts,h.along⟩
  | diverge => exact ⟨h.facts,h.along⟩

/-- The status that is found is that of the target itself. -/
theorem Facts.status_own (h : S.Facts w) (hr : B.Rooted) (hb : B.Books w) (hk : B.Knows w o) {s : Status}
    (hs : w.now.attr o "status" = s.toValue) : w.now.rawget o "status" = s.toValue := by
  cases hh : w.now.holder o "status" with
  | none =>
    exfalso
    simp only [Core.attr,hh,hb.registry] at hs
    rcases B.ready.sound.bound "status" rfl with hn | ⟨q,hq,_⟩
    · rw [hn] at hs
      split_ifs at hs
      all_goals exact toValue_ne_nil s hs.symm
    · rw [hq] at hs
      split_ifs at hs
      all_goals cases s <;> cases hs
  | some p =>
    simp only [Core.attr,hh] at hs
    have hp := List.mem_of_find?_eq_some hh
    rcases List.mem_cons.mp hp with rfl | hp
    · exact hs
    · exfalso
      obtain ⟨_,⟨m,hm,ht,hchain⟩ | hblank⟩ := hk.tables hb.toLedger
      · rw [hchain] at hp
        have hlt := B.ready.sound.linked.lt_next (B.ready.sound.registered hm) (List.mem_cons_of_mem _ hp)
        have hnil := (h.clear p hlt (hr.roots m o ⟨hm,ht⟩ p hp)).1
        exact toValue_ne_nil s (hs.symm.trans hnil)
      · rw [hblank.chain] at hp
        cases hp

/-- A name that is looked up leads to a target, or to `__target.mt`. -/
theorem lookup_leads (h : B.Books w) {key : String} {c : Core}
    (hr : targetIndex key w.now = (.ret (.obj o),c)) : B.Leads { w with now := c } key o ∨ o = mtTable := by
  rcases targetIndex_cases key w.now with ⟨_,hd,he⟩ | ⟨_,_,_,he⟩ | ⟨_,_,hne,he⟩ | ⟨_,_,hnil,he⟩
  all_goals rw [he] at hr
  · obtain ⟨hv,_⟩ := Prod.mk.inj hr
    have hp := B.ready.proxy o
    rw [← h.stays.defined] at hp
    exact absurd (Outcome.ret.inj hv) hp
  · cases hr
  · obtain ⟨hv,_⟩ := Prod.mk.inj hr
    have hreg := Outcome.ret.inj hv
    rw [h.registry] at hreg
    by_cases hm : protectedMember key = .nil
    · rcases B.ready.sound.bound key hm with hn | ⟨p,hp,ht⟩
      · rw [hn] at hreg
        cases hreg
      · rw [hp] at hreg
        cases hreg
        exact .inl (.inl ⟨hp,ht⟩)
    · rw [B.ready.sound.member key hm] at hreg
      exact .inr (Core.protectedMember_table hreg)
  · obtain ⟨hv,rfl⟩ := Prod.mk.inj hr
    cases hv
    refine .inl (.inr ⟨by rw [← h.registry]; exact hnil,h.stays.next,Nat.lt_succ_self _,?_⟩)
    simp [Core.rawget,Core.instance]

theorem Leads.along {m : String} (hr : B.Rooted) (h : B.Leads w m o) (ha : B.Along w w') :
    B.Leads w' m o := by
  rcases h with h | ⟨hreg,hle,hlt,hname⟩
  · exact .inl h
  · refine .inr ⟨hreg,hle,hlt.trans_le ha.stays.next,?_⟩
    rw [(ha.stays.kept o hlt "name" (by decide)).resolve_right fun hn => hn.1 hr.method.1]
    exact hname

theorem Leads.knows {m : String} (h : B.Leads w m o) : B.Knows w o :=
  h.imp (fun h => ⟨m,h⟩) fun h => ⟨h.2.1,h.2.2.1⟩

/-- The name of a dependency that is done. -/
theorem Idle.done {m : String} (h : S.Idle w₀ o w) (hl : B.Leads w₀ m o) : S.done w.now m := by
  rcases hl with ht | hn
  · exact .idle ht (h.target m ht).1 (h.target m ht).2
  · exact .source hn.1 (h.source m (.inr hn) hn.1)

end Signs
end Build
end Presto

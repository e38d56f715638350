import Presto.Engine.Descent

/-! The facts over a whole run. When a run ends without an error, every goal is done. -/
namespace Presto
open Program Traced

namespace Build.Signs
variable {E : Env} {B : Build E} {S : B.Signs} {w w' : World} {c : Core} {o : ObjId} {i : ℕ} {j : Job}
  {α : Type}

/-- The facts are kept, and the statuses move one way. -/
def Minds (S : B.Signs) (w w' : World) : Prop :=
  B.Books w → S.Facts w → (B.Books w' ∧ S.Facts w') ∧ B.Along w w'

instance : IsPreorder World S.Minds where
  refl w hb hf := ⟨⟨hb,hf⟩,.refl B w⟩
  trans _ _ _ h h' hb hf := by
    obtain ⟨⟨hb',hf'⟩,ha⟩ := h hb hf
    obtain ⟨hall,ha'⟩ := h' hb' hf'
    exact ⟨hall,ha.trans ha'⟩

theorem minds_of_bears (hr : B.Rooted) {m : Engine α} (h : Moves (S.Bears []) m) : Moves S.Minds m := by
  intro w hb hf
  obtain ⟨hall,hi,hfirm⟩ := h w hb (by simp) hf
  exact ⟨hall,.of_idles hr hi hfirm⟩

/-- Only the table of jobs changes. -/
theorem Facts.rerun (h : S.Facts w) (hb : B.Ledger w) (hheap : c.heap = w.now.heap)
    (hnext : c.next = w.now.next) (hreg : c.registry = w.now.registry) (hdef : c.defined = w.now.defined)
    (hfiles : c.files = w.now.files)
    (hjobs : ∀ i j, c.running.lookup i = some j → ∃ o, B.Runs o j.command j.target ∧ (o,i) ∈ starts w ∧
      w.now.rawget o "status" = Status.running.toValue) : S.Facts { w with now := c } := by
  exact h.of_heap hb (S.sees hb h.inv (Core.stays_of_heap hheap hnext hreg hdef)
    (Core.bare_of_heap hheap hnext hfiles).sees) hheap hnext.ge (fun m q hq hu => S.keeps (h.good m q hq hu) hfiles) hjobs

/-- A job ends, and the target that it names gets its last status. -/
theorem Facts.finish (h : S.Facts w) (hr : B.Rooted) (hb : B.Books w)
    (hl : w.now.running.lookup i = some j) (hrun : B.Runs o j.command j.target)
    (hs : w.now.rawget o "status" = Status.running.toValue) {s : Status}
    (hgood : s = .updated ∧ S.Good o w ∨ s = .error) :
    S.Facts { w with now := (w.now.removeJob i).rawset o "status" s.toValue } ∧
      B.Along w { w with now := (w.now.removeJob i).rawset o "status" s.toValue } := by
  obtain ⟨m,ht⟩ := hrun.target
  obtain ⟨k,hk,_,hfind⟩ := hrun.name
  have hnames : j.Names w.now.registry o := ⟨k,hk,by rw [hb.registry]; exact hfind⟩
  have hlt : o < w.now.next := ht.lt.trans_le hb.stays.next
  have hends : s = .updated ∨ s = .error := hgood.imp_left And.left
  have hraw : ∀ q n, ((w.now.removeJob i).rawset o "status" s.toValue).rawget q n =
      (w.now.rawset o "status" s.toValue).rawget q n := fun _ _ => rfl
  have hother : ∀ q, q ≠ o → ((w.now.removeJob i).rawset o "status" s.toValue).rawget q "status" =
      w.now.rawget q "status" := fun q hne => by rw [hraw]; simp [hne]
  have hself : ((w.now.removeJob i).rawset o "status" s.toValue).rawget o "status" = s.toValue := by
    rw [hraw]
    simp
  have hremove : w.now.Stays B.guarded (w.now.removeJob i) := Core.stays_of_heap rfl rfl rfl rfl
  have hstays : w.now.Stays B.guarded ((w.now.removeJob i).rawset o "status" s.toValue) :=
    hremove.trans (Core.stays_status (c := w.now.removeJob i) hlt _)
  have hadv : w.now.Advances ((w.now.removeJob i).rawset o "status" s.toValue) := by
    refine ⟨le_rfl,fun q _ => ?_⟩
    by_cases he : q = o
    · subst he
      rw [hself,hs]
      exact .finish s hends
    · rw [hother q he]
      exact .same _
  have hbare : (w.now.removeJob i).Bare B.guarded ((w.now.removeJob i).rawset o "status" s.toValue) :=
    Core.bare_rawset (.inr (by decide))
  have hmid : w.now.Bare B.guarded (w.now.removeJob i) := Core.bare_of_heap rfl rfl rfl
  have hfirm := hmid.firm.trans hbare.firm
  have hsees : w.now.Sees B.guarded ((w.now.removeJob i).rawset o "status" s.toValue) :=
    ⟨hbare.sees.files,hbare.sees.caches,hbare.sees.blank⟩
  have hold := h.closed m o ht (.inl hs)
  refine ⟨h.settle hr hb.toLedger hadv hfirm (S.sees hb.toLedger h.inv hstays hsees) (ht.knows w) ?_ hother
    (fun _ => ⟨fun _ _ => hold,(h.touched o (.inl hs)).1,m,ht⟩) ?_ ?_,hstays,hadv,fun q hq he => ?_⟩
  · rw [hs]
    simp [Status.toValue]
  · intro hu
    rcases hgood with ⟨_,hg⟩ | rfl
    · exact S.keeps hg rfl
    · cases hself.symm.trans hu
  · intro i' j' hl'
    obtain ⟨hne,hold'⟩ := Core.lookup_removeJob hl'
    obtain ⟨q,hq,ht',hs'⟩ := h.jobs i' j' hold'
    refine ⟨q,hq,ht',(hother q ?_).trans hs'⟩
    rintro rfl
    obtain ⟨k',hk',_,hfind'⟩ := hq.name
    exact hne (hb.accounts.unique i' i j' j q hold' hl ⟨k',hk',by rw [hb.registry]; exact hfind'⟩ hnames)
  · exact (hfirm.failed hr.failed q hq).trans he

/-- The coroutine of a job is dead. -/
theorem finishJob_minds (hr : B.Rooted) (hb : B.Books w) (h : S.Facts w)
    (hl : w.now.running.lookup i = some j) (err : Option Value)
    (hgood : err = none → ∀ o, B.Runs o j.command j.target → S.Good o w) :
    wp (finishJob i j err) (fun _ w' => S.Facts w' ∧ B.Along w w') w := by
  obtain ⟨o,hrun,_,hs⟩ := h.jobs i j hl
  obtain ⟨k,hk,_,hfind⟩ := hrun.name
  have hfind : Finds w.now.registry k o := by rw [hb.registry]; exact hfind
  obtain ⟨m,ht⟩ := hrun.target
  have hlt : o < w.now.next := ht.lt.trans_le hb.stays.next
  unfold finishJob
  rw [wp_bind_modify_quietly,hk]
  unfold finishTarget
  rw [wp_bind_assoc,wp_bind_indexValue (w := { w with now := w.now.removeJob i }) hfind,wp_bind_assoc,
    wp_bind_asTable,wp_bind_assoc,setStatus,wp_bind_setField]
  cases err with
  | none =>
    obtain ⟨hf,ha⟩ := h.finish hr hb hl hrun hs (s := .updated) (.inl ⟨rfl,hgood rfl o hrun⟩)
    exact ⟨hf.emit id,ha.trans (.of_heap rfl rfl rfl rfl)⟩
  | some e =>
    obtain ⟨hf,ha⟩ := h.finish hr hb hl hrun hs (s := .error) (.inr rfl)
    dsimp only
    rw [wp_bind_assoc,wp_bind_indexValue
        (w := { w with now := (w.now.removeJob i).rawset o "status" Status.updated.toValue }) hfind,
      wp_bind_assoc,wp_bind_asTable,wp_bind_assoc,setStatus,wp_bind_setField,Core.rawset_rawset,
      wp_bind_assoc,wp_bind_indexValue
        (w := { w with now := (w.now.removeJob i).rawset o "status" Status.error.toValue }) hfind,
      wp_bind_assoc,wp_bind_asTable,wp_bind_assoc,wp_bind_setField]
    have hb' := hb.finish hl ⟨k,hk,hfind⟩ hs (s := .error) (.inr rfl)
    have hi := Core.idles_rawset_of_mem (K := B.guarded) (v := e) (o := o)
      (c := (w.now.removeJob i).rawset o "status" Status.error.toValue) hlt
      (show "errmsg" ∈ ["exists","timestamp","errmsg","dep_status"] by decide)
    have hbare : ((w.now.removeJob i).rawset o "status" Status.error.toValue).Bare B.guarded
        (((w.now.removeJob i).rawset o "status" Status.error.toValue).rawset o "errmsg" e) :=
      Core.bare_rawset (.inr (by decide))
    have hf' := hf.move hr hb'.toLedger hi hbare.firm (S.sees hb'.toLedger hf.inv hi.toStays hbare.sees)
    have ha' := ha.trans (show B.Along _ { w with
      now := ((w.now.removeJob i).rawset o "status" Status.error.toValue).rawset o "errmsg" e }
      from .of_idles hr hi hbare.firm)
    exact ⟨(hf'.emit id).emit id,ha'.trans (.of_heap rfl rfl rfl rfl)⟩

/-- A running job is resumed. -/
theorem resumeJob_facts (hb : B.Books w) (h : S.Facts w) (hl : w.now.running.lookup i = some j)
    (hx : (.resuming i,w.now) ∈ w.trace) {s : Signal} (hrun : resumeJob E i j w = (.ret s,{ w with now := c })) :
    S.Facts { w with now := c } ∧
      (s = .finished → ∀ o, B.Runs o j.command j.target → S.Good o { w with now := c }) ∧ ∀ q k, c.rawget q k = w.now.rawget q k := by
  obtain ⟨o,hjob,ht,hs⟩ := h.jobs i j hl
  have hres : resumeCommand E j.command j.target i j.resumed w.now = (.ret s,c) := by
    unfold resumeJob at hrun
    rw [if_pos (hb.accounts.suspended i j hl)] at hrun
    simp only [quietly,Prog.traced] at hrun
    obtain ⟨h₁,h₂⟩ := Prod.mk.inj hrun
    exact Prod.ext h₁ (congrArg Traced.now h₂)
  obtain ⟨hf,hg⟩ := h.resume hb.toLedger hjob ht (mem_resumed_running hx hl)
    (by rw [hs]; simp [Status.toValue]) hres
  refine ⟨hf,fun hfin q hq => ?_,fun q k => ?_⟩
  · obtain ⟨k,hk,_,hfind⟩ := hjob.name
    obtain ⟨k',hk',_,hfind'⟩ := hq.name
    rw [hk] at hk'
    cases hk'
    rw [← hfind.unique hfind']
    exact hg hfin
  · exact rawget_of_resume hres q k

theorem dispatchJob_minds (hr : B.Rooted) {exit : Engine Unit} (hwinds : Moves B.Winds exit)
    (hexit : Moves S.Minds exit) (i : ℕ) (waiting : List Value) :
    Moves S.Minds (dispatchJob E exit i waiting) := by
  intro w hb hf
  have hwp : wp (dispatchJob E exit i waiting) (fun _ w' => S.Facts w' ∧ B.Along w w') w := by
    unfold dispatchJob
    rw [wp_bind_core]
    cases hl : w.now.running.lookup i with
    | none => exact ⟨hf,.refl B w⟩
    | some j =>
      dsimp only
      rw [wp_bind_emit]
      have hb' := hb.emit (e := .resuming i) id
      have hf' := hf.emit (e := .resuming i) id
      obtain ⟨signal,c,hrun,hi,hyield⟩ := resumeJob_ret hb' hl
      apply wp_bind_ret hrun
      obtain ⟨hres,hgood,hfirm⟩ := resumeJob_facts hb' hf' hl List.mem_cons_self hrun
      have hbc := hb'.idles hi
      have hl' : c.running.lookup i = some j := by rw [hi.running]; exact hl
      have halong : B.Along w { w with
          now := c
          trace := (.resuming i,w.now)::w.trace } :=
        ⟨hi.toStays,hi.advances,fun q _ he => (hfirm q "dep_status").trans he⟩
      cases signal with
      | finished =>
        have hfin := finishJob_minds hr hbc hres hl' none fun _ => hgood rfl
        apply wp_bind_of hfin
        · exact fun _ w' hw => ⟨hw.1,halong.trans hw.2⟩
        · exact fun _ w' hw => ⟨hw.1,halong.trans hw.2⟩
        · exact fun w' hw => ⟨hw.1,halong.trans hw.2⟩
      | raised v =>
        have hfin := wp_and (finishJob_books hbc hl' (some v))
          (finishJob_minds hr hbc hres hl' (some v) fun he => by cases he)
        apply wp_bind_of hfin
        · rintro _ w' ⟨hfb,hff,ha⟩
          have hreport : Moves S.Minds (reportJob j v) := minds_of_bears hr
            (moves_bind (bears_concatText _) fun _ => moves_bind (bears_message _) fun _ => bears_messageIf v)
          have hrest := (moves_bind hreport fun _ => moves_bind hexit fun _ =>
            moves_pure (Step.next waiting : Step (List Value) Empty)) w' hfb.1 hff
          exact ⟨hrest.1.2,halong.trans (ha.trans hrest.2)⟩
        · exact fun _ w' hw => ⟨hw.2.1,halong.trans hw.2.2⟩
        · exact fun w' hw => ⟨hw.2.1,halong.trans hw.2.2⟩
      | yielded v =>
        dsimp only
        rw [wp_bind_modify_quietly,wp_bind_emit]
        have hyielded := hres.rerun hbc.toLedger
          (c := c.yieldJob i j (if v = .nil then j.handle else v)) rfl rfl rfl rfl rfl fun i' j' hl'' => by
            rcases Core.lookup_insert_running hl'' with ⟨rfl,rfl⟩ | ⟨_,hold⟩
            · exact hres.jobs i' j hl'
            · exact hres.jobs i' j' hold
        exact ⟨hyielded.emit id,halong.trans (.of_heap rfl rfl rfl rfl)⟩
  exact ⟨⟨(winds_dispatchJob hwinds i waiting w hb).1,hwp.1⟩,hwp.2⟩

theorem minds_dispatch_drain_exit (hr : B.Rooted) (n : ℕ) : Moves S.Minds (dispatch E n) ∧
    Moves S.Minds (drain E n) ∧ Moves S.Minds (makeExit E n) := by
  have hcore : Moves S.Minds core := moves_gets _
  have hmessage : ∀ v, Moves S.Minds (message v) := fun v => minds_of_bears hr (bears_message v)
  have hraise : ∀ msg, Moves S.Minds (raiseError msg : Engine Unit) := fun msg => moves_raise _
  induction n with
  | zero => exact ⟨moves_diverge,moves_diverge,moves_diverge⟩
  | succ n ih =>
    obtain ⟨hdispatch,hdrain,hexit⟩ := ih
    refine ⟨?_,?_,?_⟩
    · unfold dispatch
      refine moves_bind hcore fun c => moves_bind ?_ fun order => ?_
      · exact minds_of_bears hr (bears_quietly hr (idles_enumerateJobs E)
          fun _ => Core.bare_of_heap rfl rfl rfl)
      refine moves_bind (moves_forEach (dispatchJob_minds hr (winds_dispatch_drain_exit n).2.2 hexit) _ _) fun x => ?_
      rcases x with waiting | e
      · refine moves_bind hcore fun c' => moves_ite (moves_pure _) (moves_ite (moves_pure _) ?_)
        refine moves_bind ?_ fun _ => hdispatch
        exact minds_of_bears hr (moves_ite (bears_emit id) (bears_raiseError _))
      · cases e
    · unfold drain
      refine moves_bind hcore fun c => moves_ite ?_ (moves_pure _)
      exact moves_bind (moves_attempt hdispatch) fun _ => hdrain
    · unfold makeExit
      refine moves_bind hcore fun c => moves_ite ?_ (moves_ite ?_ (hraise _))
      · exact minds_of_bears hr (bears_modify hr fun w _ _ =>
          ⟨Core.idles_of_heap rfl rfl rfl rfl rfl rfl rfl,Core.bare_of_heap rfl rfl rfl⟩)
      · refine moves_bind (hmessage _) fun _ => moves_bind hdrain fun _ => ?_
        exact moves_bind (hmessage _) fun _ => hraise _

end Build.Signs
end Presto

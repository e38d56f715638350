import Presto.Engine.Facts

/-! The facts when a status is set: a target fails, its job is started, or the job has ended. -/
namespace Presto
open Program Traced

/-- A command has no access to the tables of the targets. -/
theorem resumeCommand_heap {E : Env} (f : Fn) (name : Value) (i n : ℕ) (c : Core) :
    (resumeCommand E f name i n c).2.heap = c.heap := by
  unfold resumeCommand
  rw [run_bind_gets]
  split
  · rfl
  · split
    · next path =>
      split
      · rfl
      · cases E.md path (id c).files <;> rfl
    · rfl
  · rfl

theorem heap_of_resume {E : Env} {f : Fn} {name : Value} {i n : ℕ} {c c' : Core} {r : Outcome Value Signal}
    (hres : resumeCommand E f name i n c = (r,c')) : c'.heap = c.heap := by
  have hc := resumeCommand_heap (E := E) f name i n c
  rwa [hres] at hc

theorem rawget_of_resume {E : Env} {f : Fn} {name : Value} {i n : ℕ} {c c' : Core} {r : Outcome Value Signal}
    (hres : resumeCommand E f name i n c = (r,c')) (o : ObjId) (k : String) :
    c'.rawget o k = c.rawget o k := by
  rw [Core.rawget,heap_of_resume hres]
  rfl

namespace Build.Signs
variable {E : Env} {B : Build E} {S : B.Signs} {w : World} {c : Core} {o : ObjId}

/-- The status of one target has moved. -/
theorem Facts.settle (h : S.Facts w) (hr : B.Rooted) (hb : B.Ledger w) (hadv : w.now.Advances c) (hfirm : w.now.Firm B.guarded c)
    (hinv : S.Inv { w with now := c }) (hk : B.Knows w o) (hnil : ¬w.now.rawget o "status" = Status.updated.toValue)
    (hother : ∀ q, q ≠ o → c.rawget q "status" = w.now.rawget q "status")
    (hnew : Active c o → (∀ m, B.Target m o → ∀ n ∈ B.origin.deps o, S.done w.now n) ∧ Touched w o ∧
      ∃ m, B.Target m o)
    (hgood : c.rawget o "status" = Status.updated.toValue → S.Good o { w with now := c })
    (hjobs : ∀ i j, c.running.lookup i = some j → ∃ o, B.Runs o j.command j.target ∧ (o,i) ∈ starts w ∧
      c.rawget o "status" = Status.running.toValue) : S.Facts { w with now := c } where
  inv := hinv
  pruned m q ht := by
    have hq := ht.lt.trans_le hb.stays.next
    exact (h.pruned m q ht).imp (fun he => (hfirm.deps hr.deps q hq).trans he)
      fun he => (hfirm.failed hr.failed q hq).trans he
  clear q hq hn := by
    obtain ⟨hs,hd⟩ := h.clear q hq hn
    have hne : q ≠ o := by
      rintro rfl
      rcases hk with ⟨m,hm⟩ | ⟨hle,_⟩
      · exact hn m hm
      · exact absurd hq (not_lt.mpr hle)
    exact ⟨(hother q hne).trans hs,(hfirm.failed hr.failed q (hq.trans_le hb.stays.next)).trans hd⟩
  closed m q ht ha n hn := by
    refine Done.mono hb.stays.next hadv ?_
    by_cases he : q = o
    · subst he
      exact (hnew ha).1 m ht n hn
    · exact h.closed m q ht (by unfold Active at ha ⊢; rwa [← hother q he]) n hn
  touched q ha := by
    by_cases he : q = o
    · subst he
      exact (hnew ha).2
    · exact h.touched q (by unfold Active at ha ⊢; rwa [← hother q he])
  sure := h.sure
  good m q ht hs := by
    by_cases he : q = o
    · subst he
      exact hgood hs
    · exact S.keeps (h.good m q ht ((hother q he).symm.trans hs)) hfirm.files
  jobs := hjobs
  begun := h.begun

theorem not_active_error {s : Value} (hs : c.rawget o "status" = s) (hne : s = Status.error.toValue) :
    ¬Active c o := by
  unfold Active
  rw [hs,hne]
  rintro (ha | ha) <;> cases ha

/-- A job's target is not one that has no status yet. -/
theorem Facts.jobs_other (h : S.Facts w) (hnil : w.now.rawget o "status" = .nil)
    (hother : ∀ q, q ≠ o → c.rawget q "status" = w.now.rawget q "status") {i : ℕ} {j : Job}
    (hl : w.now.running.lookup i = some j) : ∃ o, B.Runs o j.command j.target ∧ (o,i) ∈ starts w ∧
      c.rawget o "status" = Status.running.toValue := by
  obtain ⟨q,hrun,ht,hs⟩ := h.jobs i j hl
  have hne : q ≠ o := by
    rintro rfl
    rw [hnil] at hs
    cases hs
  exact ⟨q,hrun,ht,(hother q hne).trans hs⟩

/-- A target that has no status fails. -/
theorem Facts.markError (h : S.Facts w) (hr : B.Rooted) (hb : B.Books w) (hk : B.Knows w o)
    (hnil : w.now.rawget o "status" = .nil) : S.Facts { w with
      now := w.now.rawset o "status" Status.error.toValue
      trace := (.marked o,w.now.rawset o "status" Status.error.toValue)::w.trace } := by
  have hother : ∀ q, q ≠ o → (w.now.rawset o "status" Status.error.toValue).rawget q "status" =
      w.now.rawget q "status" := fun q hne => by simp [hne]
  have hself : (w.now.rawset o "status" Status.error.toValue).rawget o "status" =
      Status.error.toValue := by simp
  have hstays : w.now.Stays B.guarded (w.now.rawset o "status" Status.error.toValue) :=
    Core.stays_status (hk.lt_next hb) _
  refine (h.settle hr hb.toLedger ?_ (Core.firm_rawset (.inr (by decide)))
    (S.sees hb.toLedger h.inv hstays (Core.sees_rawset (.inr (by decide)))) hk (by rw [hnil]; simp [Status.toValue])
    hother ?_ ?_ ?_).emit id
  · exact advances_mark (s := .error) (by simp) hnil le_rfl hself fun q _ hne => hother q hne
  · exact fun ha => absurd ha (not_active_error hself rfl)
  · exact fun hs => by cases hself.symm.trans hs
  · exact fun i j hl => h.jobs_other hnil hother hl

/-- No table is written. -/
theorem Facts.of_heap (h : S.Facts w) (hb : B.Ledger w) (hinv : S.Inv { w with now := c })
    (hheap : c.heap = w.now.heap) (hnext : w.now.next ≤ c.next)
    (hgood : ∀ m q, B.Target m q → w.now.rawget q "status" = Status.updated.toValue → S.Good q { w with now := c })
    (hjobs : ∀ i j, c.running.lookup i = some j → ∃ o, B.Runs o j.command j.target ∧ (o,i) ∈ starts w ∧
      w.now.rawget o "status" = Status.running.toValue) : S.Facts { w with now := c } := by
  have hraw : ∀ q k, c.rawget q k = w.now.rawget q k := fun q k => by rw [Core.rawget,hheap]; rfl
  have hact : ∀ q, Active c q ↔ Active w.now q := fun q => by unfold Active; rw [hraw]
  have hadv : w.now.Advances c := ⟨hnext,fun q _ => by rw [hraw]; exact .same _⟩
  refine ⟨hinv,?_,?_,?_,?_,h.sure,?_,?_,h.begun⟩
  · intro m q hq
    rw [Core.deps_congr (hraw q _),hraw]
    exact h.pruned m q hq
  · intro q hq hn
    rw [hraw,hraw]
    exact h.clear q hq hn
  · exact fun m q hq ha n hn => (h.closed m q hq ((hact q).mp ha) n hn).mono hb.stays.next hadv
  · exact fun q ha => h.touched q ((hact q).mp ha)
  · exact fun m q hq hu => hgood m q hq ((hraw q _).symm.trans hu)
  · intro i j hl
    obtain ⟨q,hq,ht,hs⟩ := hjobs i j hl
    exact ⟨q,hq,ht,(hraw q _).trans hs⟩

/-- What a job does to the files. -/
theorem Facts.resume (h : S.Facts w) (hb : B.Ledger w) {f : Fn} {name : Value} {i n : ℕ}
    {s : Signal} (hrun : B.Runs o f name) (ht : (o,i) ∈ starts w)
    (hx : ⟨i,f,name,n,w.now⟩ ∈ resumed w.trace) (hs : w.now.rawget o "status" ≠ Status.updated.toValue)
    (hres : resumeCommand E f name i n w.now = (.ret s,c)) :
    S.Facts { w with now := c } ∧ (s = .finished → S.Good o { w with now := c }) := by
  obtain ⟨hinv,hfin,hrest⟩ := S.resume hb h.inv hrun ht hx (h.sure (o,i) ht) hres
  have hi : w.now.Idles B.guarded c := by
    have hi := idles_resumeCommand (K := B.guarded) E f name i n w.now
    rwa [hres] at hi
  refine ⟨h.of_heap hb hinv (heap_of_resume hres) hi.next ?_ fun i j hl => h.jobs i j (hi.running ▸ hl),hfin⟩
  intro m q hq hu
  apply hrest q
  · rintro rfl
    exact hs hu
  · intro k hkq hko
    -- what `q` depends on is done, and `o` is not updated
    rcases h.closed m q hq (.inr hu) k hkq with ⟨hn,_⟩ | ⟨hp,hu'⟩ | ⟨hp,hstill,_⟩
    · exact absurd (hn.symm.trans hko.1) (by simp)
    · obtain rfl := Value.obj.inj (hp.1.symm.trans hko.1)
      exact absurd hu' hs
    · obtain rfl := Value.obj.inj (hp.1.symm.trans hko.1)
      exact hstill
  · exact h.good m q hq hu

/-- A job is started for a target whose dependencies are done. -/
theorem Facts.start (h : S.Facts w) (hb : B.Ledger w) (hsure : ¬S.Sure o)
    (hdone : ∀ n ∈ B.origin.deps o, S.done w.now n) : S.Facts (launched w o) := by
  have hbare : w.now.Bare B.guarded w.now.nextJob := Core.bare_of_heap rfl rfl rfl
  have hinv : S.Inv { w with now := w.now.nextJob } :=
    S.sees hb h.inv (Core.stays_of_heap rfl rfl rfl rfl) hbare.sees
  have hgood : ∀ m q, B.Target m q → w.now.nextJob.rawget q "status" = Status.updated.toValue →
      S.Good q { w with now := w.now.nextJob } := fun m q ht hs => S.keeps (h.good m q ht hs) rfl
  have hmono : ∀ {s}, s ∈ starts w → s ∈ starts (launched w o) := List.mem_cons_of_mem _
  have hsame : ∀ {n}, S.done w.now n → S.done w.now.nextJob n :=
    fun hn => hn.mono hb.stays.next ⟨le_rfl,fun _ _ => .same _⟩
  constructor
  · exact S.emit _ hinv
  · exact h.pruned
  · exact h.clear
  · exact fun m q hq ha n hn => hsame (h.closed m q hq ha n hn)
  · exact fun q ha => ⟨(h.touched q ha).1.imp fun _ => hmono,(h.touched q ha).2⟩
  · intro s hs
    rcases List.mem_cons.mp hs with rfl | hs
    · exact hsure
    · exact h.sure s hs
  · exact fun m q ht hs => S.records _ (hgood m q ht hs)
  · intro i j hl
    obtain ⟨q,hq,ht,hs⟩ := h.jobs i j hl
    exact ⟨q,hq,hmono ht,hs⟩
  · intro x hx q i hxe
    rcases List.mem_cons.mp hx with rfl | hx
    · cases hxe
      refine ⟨w.trace,hinv,hgood,fun j k hl => ?_,fun n hn => hsame (hdone n hn)⟩
      obtain ⟨q,hq,hi,hs⟩ := h.jobs j k hl
      exact ⟨q,hq,h.sure _ hi,hs⟩
    · exact h.begun x hx q i hxe

theorem Ledger.attr_command (hb : B.Ledger w) (hr : B.Rooted) {m : String} (ht : B.Target m o) :
    w.now.attr o "command" = B.origin.attr o "command" := by
  apply Core.attr_congr (hb.stays.chain o ht.lt)
  · intro p hp
    exact (hb.stays.kept p (B.ready.sound.linked.lt_next ht.lt hp) "command" (by decide)).resolve_right
      fun hk => hk.1 hr.commands.1
  · exact hb.stays.isTarget o ht.lt
  · exact fun _ => congrFun hb.registry _

/-- The job of a target runs its command, under its name. -/
theorem Ledger.runs (hb : B.Ledger w) (hr : B.Rooted) {m : String} (ht : B.Target m o) {f : Fn}
    (hf : w.now.attr o "command" = .fn f) : B.Runs o f (w.now.attr o "name") := by
  obtain ⟨k,hk,hfind⟩ := B.ready.named m o ht.1 ht.2
  have hkept := (hb.stays.kept o ht.lt "name" (by decide)).resolve_right fun hn => hn.1 hr.method.1
  have hattr : w.now.attr o "name" = .str k := by
    rw [Core.attr_eq_rawget (by rw [hkept,hk]; simp),hkept,hk]
  exact ⟨⟨m,ht⟩,by rw [← Ledger.attr_command hb hr ht]; exact hf,k,hattr,hk,hfind⟩

/-- A target with no status gets that of the first resume of its job; what is to be done is in `c`. -/
theorem Facts.settleStart (h : S.Facts w) (hr : B.Rooted) (hb : B.Ledger w) {m : String} (ht : B.Target m o)
    (hnil : w.now.rawget o "status" = .nil) (hdone : ∀ n ∈ B.origin.deps o, S.done w.now n) (htouch : Touched w o)
    {signal : Signal} (hgood : signal = .finished → S.Good o w)
    (hheap : c.heap = (w.now.rawset o "status" signal.status.toValue).heap) (hnext : c.next = w.now.next)
    (hreg : c.registry = w.now.registry) (hdef : c.defined = w.now.defined) (hfiles : c.files = w.now.files)
    (hjobs : ∀ i j, c.running.lookup i = some j → ∃ o, B.Runs o j.command j.target ∧ (o,i) ∈ starts w ∧
      c.rawget o "status" = Status.running.toValue) : S.Facts { w with now := c } := by
  have hlt : o < w.now.next := ht.lt.trans_le hb.stays.next
  have hraw : ∀ q k, c.rawget q k = (w.now.rawset o "status" signal.status.toValue).rawget q k :=
    fun q k => by rw [Core.rawget,hheap]; rfl
  have hother : ∀ q, q ≠ o → c.rawget q "status" = w.now.rawget q "status" := fun q hne => by
    rw [hraw]
    simp [hne]
  have hself : c.rawget o "status" = signal.status.toValue := by simp [hraw]
  have hsees : w.now.Sees B.guarded c := by
    have hs : w.now.Sees B.guarded (w.now.rawset o "status" signal.status.toValue) :=
      Core.sees_rawset (.inr (by decide))
    refine ⟨hfiles,fun k hk hK q hq => ?_,fun _ _ _ q h h' => absurd h' (not_lt.mpr (hnext.le.trans h))⟩
    rw [hraw]
    exact hs.caches k hk hK q hq
  have hfirm : w.now.Firm B.guarded c := by
    have hf : w.now.Firm B.guarded (w.now.rawset o "status" signal.status.toValue) :=
      Core.firm_rawset (.inr (by decide))
    refine ⟨hnext.ge,hfiles,fun hK q hq => ?_,fun hK q hq => ?_⟩
    · exact (Core.deps_congr (hraw q _)).trans (hf.deps hK q hq)
    · rw [hraw]
      exact hf.failed hK q hq
  have hstays : w.now.Stays B.guarded c :=
    (Core.stays_status hlt _).trans (Core.stays_of_heap hheap hnext hreg hdef)
  refine h.settle hr hb ?_ hfirm (S.sees hb h.inv hstays hsees) (ht.knows w)
    (by rw [hnil]; simp [Status.toValue]) hother (fun _ => ⟨fun _ _ => hdone,htouch,m,ht⟩) ?_ hjobs
  · refine advances_mark (s := signal.status) ?_ hnil hnext.ge hself fun q _ hne => hother q hne
    cases signal <;> simp [Signal.status]
  · intro hu
    rw [hself] at hu
    refine S.keeps (hgood ?_) hfiles
    cases signal with
    | finished => rfl
    | yielded v => cases hu
    | raised v => cases hu

/-- The first resume of a job is recorded. -/
theorem Facts.recordFirst (h : S.Facts w) (hr : B.Rooted) (hb : B.Ledger w) {m : String}
    (ht : B.Target m o) (hnil : w.now.rawget o "status" = .nil)
    (hdone : ∀ n ∈ B.origin.deps o, S.done w.now n) {i : ℕ} (hstart : (o,i) ∈ starts w) {j : Job}
    (hrun : B.Runs o j.command j.target) {signal : Signal} (hgood : signal = .finished → S.Good o w) :
    wp (recordFirst o i j signal) (fun _ w' => S.Facts w') w := by
  have htouch : Touched w o := ⟨i,hstart⟩
  unfold Presto.recordFirst
  rw [wp_bind_modify_quietly]
  cases signal with
  | yielded v =>
    refine h.settleStart hr hb ht hnil hdone htouch hgood (c := w.now.recordStart o i j (.yielded v))
      rfl rfl rfl rfl rfl fun i' j' hl => ?_
    rcases Core.lookup_insert_running hl with ⟨rfl,rfl⟩ | ⟨_,hold⟩
    · exact ⟨o,hrun,hstart,by simp [Core.recordStart,Signal.status]⟩
    · refine h.jobs_other hnil (fun q hne => ?_) hold
      simp only [Core.recordStart,Core.rawget_rawset,hne,false_and,if_false]
      rfl
  | finished =>
    exact h.settleStart hr hb ht hnil hdone htouch hgood (c := w.now.recordStart o i j .finished)
      rfl rfl rfl rfl rfl fun i' j' hl => h.jobs_other hnil (fun q hne => by simp [Core.recordStart,hne]) hl
  | raised v =>
    have hlt : o < w.now.next := ht.lt.trans_le hb.stays.next
    have hs : S.Facts { w with now := w.now.rawset o "status" Status.error.toValue } :=
      h.settleStart hr hb ht hnil hdone htouch hgood rfl rfl rfl rfl rfl
        fun i' j' hl => h.jobs_other hnil (fun q hne => by simp [hne]) hl
    have hadv : w.now.Advances (w.now.rawset o "status" Status.error.toValue) :=
      advances_mark (s := .error) (by simp) hnil le_rfl (by simp) fun q _ hne => by simp [hne]
    have hl := hb.move (Core.stays_status hlt _) (hb.accounts.settle hnil (.inr rfl)) hadv le_rfl
    have hi := Core.idles_rawset_of_mem (K := B.guarded) (v := v) (o := o)
      (c := w.now.rawset o "status" Status.error.toValue) hlt
      (show "errmsg" ∈ ["exists","timestamp","errmsg","dep_status"] by decide)
    have hbare : (w.now.rawset o "status" Status.error.toValue).Bare B.guarded
        (w.now.recordStart o i j (.raised v)) := Core.bare_rawset (.inr (by decide))
    exact (hs.move hr hl hi hbare.firm (S.sees hl hs.inv hi.toStays hbare.sees)).emit id

end Build.Signs
end Presto

import Presto.Engine.StatusFrame
import Presto.Engine.Failure

/-! The two steps of a job that the books have an entry for: its start and its end. -/
namespace Presto
open Program Traced

/-- The rule of `make.jobs.start`: the job gets its number, then the command is run if there is
one. -/
theorem wp_jobsStart {E : Env} {o : ObjId} {w : World} {Q : Outcome Value Value → World → Prop}
    (hraise : (∀ f, w.now.attr o "command" = .fn f → w.now.attr o "name" = .nil) →
      ∀ e, Q (.raise e) (launched w o))
    (hstart : ∀ f, w.now.attr o "command" = .fn f → w.now.attr o "name" ≠ .nil →
      wp (startJob E o w.now.nextJob.pos f (w.now.attr o "name")) Q (launched w o)) :
    wp (jobsStart E o) Q w := by
  have hattr : ∀ k, w.now.nextJob.attr o k = w.now.attr o k := fun k => rfl
  unfold jobsStart
  rw [wp_bind_modify_quietly,wp_bind_core,wp_bind_emit]
  simp only [hattr]
  split
  · next f hf =>
    rw [wp_ite]
    split_ifs with hn
    · exact hraise (fun _ _ => hn) _
    · exact hstart f hf hn
  · next hf => exact hraise (fun f he => absurd he (hf f)) _

namespace Build
variable {E : Env} {B : Build E}

/-- From `w` to `w'` only the status of `o` has changed, to `s`. -/
structure Marks (w : World) (o : ObjId) (s : Status) (w' : World) : Prop where
  next : w.now.next ≤ w'.now.next
  status : w'.now.rawget o "status" = s.toValue
  others : ∀ q < w.now.next, q ≠ o → w'.now.rawget q "status" = w.now.rawget q "status"

section Record
variable {w : World} {o : ObjId} {i : ℕ} {j : Job} {signal : Signal}

theorem count_nil_running (h : B.Ledger w) : w.now.running.lookup (w.now.pos+1) = none := by
  cases hl : w.now.running.lookup (w.now.pos+1) with
  | none => rfl
  | some j => exact absurd (h.accounts.ids _ j hl) (Nat.not_succ_le_self _)

theorem toValue_ne_nil (s : Status) : s.toValue ≠ .nil := by cases s <;> simp [Status.toValue]

theorem advances_mark {c c' : Core} {o : ObjId} {s : Status} (hs : s ≠ .none)
    (hnil : c.rawget o "status" = .nil) (hnext : c.next ≤ c'.next)
    (hset : c'.rawget o "status" = s.toValue)
    (hother : ∀ q < c.next, q ≠ o → c'.rawget q "status" = c.rawget q "status") : c.Advances c' := by
  refine ⟨hnext,fun q hq => ?_⟩
  by_cases he : q = o
  · subst q
    rw [hset,hnil]
    exact .start s hs
  · rw [hother q hq he]
    exact .same _

/-- The first resume of a new job is recorded. -/
theorem ledger_recordFirst (h : B.Ledger w) (ho : o < w.now.next)
    (hnil : w.now.rawget o "status" = .nil) (hroom : w.now.count < E.slots) (hi : i ≤ w.now.pos)
    (hfresh : w.now.running.lookup i = none) (hj : ∀ v, signal = .yielded v → j.suspended E i = true)
    (htarget : ∀ k, j.target = .str k → Finds w.now.registry k o)
    (hnamed : (∃ k, j.target = .str k) ∨ "name" ∉ B.guarded ∧ j.target = .bool true) (hable : B.Able o) :
    wp (recordFirst o i j signal) (fun r w' => r = .ret () ∧ B.Ledger w' ∧
      Marks w o signal.status w' ∧ starts w' = starts w ∧
      (w'.now.count < E.slots ∨ signal.status = .running) ∧ w.now.count ≤ w'.now.count ∧
      ∀ i' j', w'.now.running.lookup i' = some j' → w.now.running.lookup i' = some j' ∨
        i' = i ∧ ∃ v, signal = .yielded v ∧ j' = { j with handle := v }) w := by
  have hmark : ∀ c : Core, c.next = w.now.next → c.rawget o "status" = signal.status.toValue →
      (∀ q < w.now.next, q ≠ o → c.rawget q "status" = w.now.rawget q "status") →
      w.now.Advances c ∧ Marks w o signal.status { w with now := c } := by
    intro c hnext hset hother
    refine ⟨advances_mark ?_ hnil hnext.ge hset hother,hnext.ge,hset,hother⟩
    cases signal <;> simp [Signal.status]
  unfold recordFirst
  rw [wp_bind_modify_quietly]
  cases signal with
  | yielded v =>
    obtain ⟨hadv,hm⟩ := hmark (w.now.recordStart o i j (.yielded v)) rfl (by simp [Core.recordStart])
      (fun q _ hne => by
        simp only [Core.recordStart,Core.rawget_rawset,hne,false_and,if_false]
        rfl)
    refine ⟨rfl,h.move ?_ ?_ hadv le_rfl,hm,rfl,.inr rfl,?_,?_⟩
    · refine Core.Stays.trans ?_ (Core.stays_status (K := B.guarded) (c := w.now.insertJob i _) ho _)
      exact Core.stays_of_heap rfl rfl rfl rfl
    · exact h.accounts.insertJob (j := { j with handle := v }) ho hnil hroom hi hfresh (hj v rfl) htarget hnamed hable
    · change w.now.count ≤ w.now.count+1
      omega
    · intro i' j' hl
      rcases Core.lookup_insert_running hl with ⟨rfl,rfl⟩ | ⟨_,hold⟩
      · exact .inr ⟨rfl,v,rfl,rfl⟩
      · exact .inl hold
  | finished =>
    obtain ⟨hadv,hm⟩ := hmark (w.now.recordStart o i j .finished) rfl (by simp [Core.recordStart])
      (fun q _ hne => by simp [Core.recordStart,hne])
    exact ⟨rfl,h.move (Core.stays_status ho _) (h.accounts.settle hnil (.inl rfl)) hadv le_rfl,hm,rfl,
      .inl hroom,le_rfl,fun _ _ => .inl⟩
  | raised v =>
    obtain ⟨hadv,hm⟩ := hmark (w.now.recordStart o i j (.raised v)) rfl (by simp [Core.recordStart])
      (fun q _ hne => by simp [Core.recordStart,hne])
    have herr : (w.now.rawset o "status" Status.error.toValue).Idles B.guarded
        (w.now.recordStart o i j (.raised v)) :=
      Core.idles_rawset_of_mem (c := w.now.rawset o "status" Status.error.toValue) ho (by decide)
    have hl : B.Ledger { w with now := w.now.recordStart o i j (.raised v) } :=
      h.move ((Core.stays_status ho _).trans herr.toStays)
        ((h.accounts.settle hnil (.inr rfl)).idles herr) hadv le_rfl
    refine ⟨rfl,hl.emit id,?_,starts_emit (w := { w with now := _ }) id,.inl hroom,le_rfl,fun _ _ => .inl⟩
    exact ⟨hm.next,hm.status,hm.others⟩

end Record

section Target
variable {w : World} {o : ObjId}

/-- The tables behind a target, and what the books know of them. -/
theorem Knows.tables (h : B.Knows w o) (hb : B.Ledger w) : (w.now.heap o).isTarget ∧
    ((∃ m, B.origin.registry m = .obj o ∧ (B.origin.heap o).isTarget ∧
      (w.now.heap o).chain = (B.origin.heap o).chain) ∨ w.now.Blank B.guarded o) := by
  rcases h with ⟨m,hm,ht⟩ | ⟨hle,hlt⟩
  · have ho := B.ready.sound.registered hm
    exact ⟨by rw [hb.stays.isTarget o ho]; exact ht,.inl ⟨m,hm,ht,hb.stays.chain o ho⟩⟩
  · exact ⟨(hb.stays.later o hle hlt).isTarget,.inr (hb.stays.later o hle hlt)⟩

/-- A lookup in a table made by a lookup. -/
theorem Blank.attr {K : Finset String} {c : Core} (h : c.Blank K o) {k : String} (hk : k ∈ Core.pinned)
    (hne : k ≠ "name") : c.attr o k = c.registry k ∨ k ∉ K ∧ c.attr o k = .bool true := by
  rcases h.own k hk hne with hn | ⟨hK,ht⟩
  · left
    have hnone : c.holder o k = none := by simp [Core.holder,h.chain,hn]
    simp [Core.attr,hnone,h.isTarget]
  · exact .inr ⟨hK,by rw [Core.attr_eq_rawget (by simp [ht]),ht]⟩

/-- Only registered targets have a command. -/
theorem Knows.registered_of_command (h : B.Knows w o) (hb : B.Ledger w) {f : Fn}
    (hf : w.now.attr o "command" = .fn f) :
    ∃ m, B.origin.registry m = .obj o ∧ (B.origin.heap o).isTarget := by
  obtain ⟨_,⟨m,hm,ht,_⟩ | hblank⟩ := h.tables hb
  · exact ⟨m,hm,ht⟩
  · exfalso
    rcases Blank.attr hblank (k := "command") (by decide) (by decide) with hr | ⟨_,ht⟩
    · rw [hr,hb.registry] at hf
      rcases B.ready.sound.bound "command" rfl with hn | ⟨p,hp,_⟩
      · rw [hn] at hf
        cases hf
      · rw [hp] at hf
        cases hf
    · rw [ht] at hf
      cases hf

/-- The name of a registered target is the one it is found by, unless it is lost. -/
theorem name_of_registered (hb : B.Ledger w) {m : String} (hm : B.origin.registry m = .obj o)
    (ht : (B.origin.heap o).isTarget) :
    (∃ k, w.now.attr o "name" = .str k ∧ Finds w.now.registry k o) ∨
      "name" ∉ B.guarded ∧ w.now.attr o "name" = .bool true := by
  obtain ⟨k,hk,hf⟩ := B.ready.named m o hm ht
  rw [hb.registry]
  rcases hb.stays.kept o (B.ready.sound.registered hm) "name" (by decide) with he | ⟨hn,he⟩
  · rw [hk] at he
    exact .inl ⟨k,by rw [Core.attr_eq_rawget (by simp [he]),he],hf⟩
  · exact .inr ⟨hn,by rw [Core.attr_eq_rawget (by simp [he]),he]⟩

/-- A registered target whose command is a function had it from the beginning. -/
theorem able_of_command (hb : B.Ledger w) {m : String} (hm : B.origin.registry m = .obj o) {f : Fn}
    (hf : w.now.attr o "command" = .fn f) : B.Able o := by
  have ho := B.ready.sound.registered hm
  refine ⟨f,?_⟩
  cases hh : w.now.holder o "command" with
  | none =>
    simp only [Core.attr,hh,hb.registry] at hf
    rcases B.ready.sound.bound "command" rfl with hn | ⟨q,hq,_⟩
    · rw [hn] at hf
      split_ifs at hf
    · rw [hq] at hf
      split_ifs at hf
  | some p =>
    simp only [Core.attr,hh] at hf
    have hkept : ∀ q ∈ o::(B.origin.heap o).chain, w.now.rawget q "command" = B.origin.rawget q "command" ∨
        w.now.rawget q "command" = .bool true := fun q hq =>
      (hb.stays.kept q (B.ready.sound.linked.lt_next ho hq) "command" (by decide)).imp id And.right
    unfold Core.holder at hh
    rw [hb.stays.chain o ho] at hh
    obtain ⟨_,l₁,l₂,hl,hbefore⟩ := List.find?_eq_some_iff_append.mp hh
    have hp : w.now.rawget p "command" = B.origin.rawget p "command" :=
      (hkept p (by rw [hl]; simp)).resolve_right fun h => by rw [hf] at h; cases h
    have hsame : B.origin.holder o "command" = some p := by
      unfold Core.holder
      rw [hl,List.find?_append,List.find?_eq_none.mpr,Option.none_or]
      · simp [← hp,hf]
      · intro q hq
        have hnil : w.now.rawget q "command" = .nil := by simpa using hbefore q hq
        rcases hkept q (by rw [hl]; exact List.mem_append_left _ hq) with h | h
        · simp [← h,hnil]
        · rw [hnil] at h
          cases h
    simp only [Core.attr,hsame,← hp,hf]

/-- As long as commands are functions, only functions of the makefile are started. -/
theorem Knows.callable (h : B.Knows w o) (hb : B.Ledger w) (hc : B.Commands)
    (ht : (w.now.attr o "command").truthy) : ∃ f, w.now.attr o "command" = .fn f ∧
      ∃ p < B.origin.next, B.origin.rawget p "command" = .fn f := by
  have hguard := hc.1
  obtain ⟨_,⟨m,hm,_,hchain⟩ | hblank⟩ := h.tables hb
  · have ho := B.ready.sound.registered hm
    cases hh : w.now.holder o "command" with
    | none =>
      simp only [Core.attr,hh,hb.registry,hc.2.1] at ht
      split_ifs at ht
      all_goals cases ht
    | some p =>
      have hattr : w.now.attr o "command" = w.now.rawget p "command" := by simp [Core.attr,hh]
      have hp := List.mem_of_find?_eq_some hh
      rw [hchain] at hp
      have hlt : p < B.origin.next := B.ready.sound.linked.lt_next ho hp
      have hkept : w.now.rawget p "command" = B.origin.rawget p "command" := by
        exact (hb.stays.kept p hlt "command" (by decide)).resolve_right fun hk => hk.1 hguard
      rw [hattr,hkept] at ht ⊢
      obtain ⟨f,hf⟩ := (hc.2.2 m o hm p hp).resolve_right (by simp [ht])
      exact ⟨f,hf,p,hlt,hf⟩
  · rcases Blank.attr hblank (k := "command") (by decide) (by decide) with hr | ⟨hK,_⟩
    · rw [hr,hb.registry,hc.2.1] at ht
      cases ht
    · exact absurd hguard hK

/-- The books after `make.jobs.start`. -/
structure JobStarted (w : World) (o : ObjId) (r : Outcome Value Value) (w' : World) : Prop where
  books : B.Books w'
  next : w.now.next ≤ w'.now.next
  others : ∀ q < w.now.next, q ≠ o → w'.now.rawget q "status" = w.now.rawget q "status"
  room : w'.now.count < E.slots ∨ r = .ret Status.running.toValue
  count : w.now.count ≤ w'.now.count
  own : ∀ v, r = .ret v → w'.now.rawget o "status" = v
  answers : ∀ v, r = .ret v → v ≠ .nil

/-- The books of a target that is started and has not got a status. -/
theorem Ledger.books (h : B.Ledger w) {w₀ : World} (hb : B.Books w₀) {i : ℕ}
    (hnil : w₀.now.rawget o "status" = .nil) (hstarts : starts w = (o,i)::starts w₀)
    (hs : B.Commands → w.now.rawget o "status" ≠ .nil ∧ o < B.origin.next)
    (hother : ∀ q, w₀.now.rawget q "status" ≠ .nil → w.now.rawget q "status" ≠ .nil)
    (hjobs : ∀ i j, w.now.running.lookup i = some j → B.JobOk i j) : B.Books w where
  toLedger := h
  started hc s hmem := by
    rw [hstarts] at hmem
    rcases List.mem_cons.mp hmem with rfl | hmem
    · exact (hs hc).1
    · exact hother s.1 (hb.started hc s hmem)
  once hc := by
    rw [hstarts]
    refine List.nodup_cons.mpr ⟨fun hmem => ?_,hb.once hc⟩
    obtain ⟨s,hs',he⟩ := List.mem_map.mp hmem
    exact hb.started hc s hs' (he ▸ hnil)
  targets hc s hmem := by
    rw [hstarts] at hmem
    rcases List.mem_cons.mp hmem with rfl | hmem
    · exact (hs hc).2
    · exact hb.targets hc s hmem
  jobs := hjobs

/-- A resume of a command comes back. -/
theorem resumeCommand_ret (f : Fn) (name : Value) (i n : ℕ) (c : Core) :
    ∃ s c', resumeCommand E f name i n c = (.ret s,c') ∧ c.Idles B.guarded c' ∧
      ∀ v, s = .yielded v → (E.resume f name i n).signal = .yielded v := by
  obtain ⟨s,hs,hv⟩ := resumeCommand_signal E f name i n c
  exact ⟨s,_,Prod.ext hs rfl,idles_resumeCommand E f name i n c,hv⟩

/-- The new job of a target that has yielded once. -/
theorem jobOk_started (h : B.Books w) (hk : B.Knows w o) (hcmd : (w.now.attr o "command").truthy) {f : Fn}
    (hf : w.now.attr o "command" = .fn f) {i : ℕ} {v : Value}
    (hy : (E.resume f (w.now.attr o "name") i 0).signal = .yielded v) :
    B.JobOk i ⟨f,w.now.attr o "name",1,v⟩ where
  yielded n hn := by
    obtain rfl := Nat.lt_one_iff.mp hn
    exact ⟨v,hy⟩
  command hc := by
    obtain ⟨f',hf',hp⟩ := hk.callable h.toLedger hc hcmd
    rw [hf] at hf'
    cases hf'
    exact hp
  target _ hg := by
    obtain ⟨m,hm,ht⟩ := hk.registered_of_command h.toLedger hf
    have ho : o < B.origin.next := B.ready.sound.registered hm
    have hkept := (h.stays.kept o ho "name" (by decide)).resolve_right fun hn => hn.1 hg
    have hattr : w.now.attr o "name" = w.now.rawget o "name" := by
      obtain ⟨k,hk',_⟩ := B.ready.named m o hm ht
      exact Core.attr_eq_rawget (by rw [hkept,hk']; simp)
    exact ⟨o,ho,hkept.symm.trans hattr.symm⟩

/-- A target that has no status is started in a free slot. -/
theorem jobsStart_books (h : B.Books w) (hk : B.Knows w o) (hnil : w.now.rawget o "status" = .nil)
    (hroom : w.now.count < E.slots) (hcmd : (w.now.attr o "command").truthy) :
    wp (jobsStart E o) (JobStarted (B := B) w o) w := by
  have hlt := hk.lt_next h
  have hl := h.toLedger.start o
  apply wp_jobsStart
  · intro hnone e
    have hno : ¬∃ f, w.now.attr o "command" = .fn f := by
      rintro ⟨f,hf⟩
      obtain ⟨m,hm,ht⟩ := hk.registered_of_command h.toLedger hf
      have hname := hnone f hf
      rcases name_of_registered h.toLedger hm ht with ⟨k,hn,_⟩ | ⟨_,hn⟩ <;> rw [hn] at hname <;> cases hname
    exact ⟨hl.books h hnil rfl (fun hc => absurd ((hk.callable h.toLedger hc hcmd).imp fun _ hp => hp.1) hno)
      (fun _ => id) h.jobs,le_rfl,fun _ _ _ => rfl,.inl hroom,le_rfl,(fun v hv => by cases hv),fun v hv => by cases hv⟩
  · intro f hf _
    obtain ⟨m,hm,ht⟩ := hk.registered_of_command h.toLedger hf
    have hname := name_of_registered h.toLedger hm ht
    unfold startJob
    rw [wp_bind_emit]
    obtain ⟨signal,c,hr,hi,hyield⟩ := resumeCommand_ret (B := B) f (w.now.attr o "name") w.now.nextJob.pos 0 w.now.nextJob
    apply wp_bind_ret (quietly_ret hr)
    have hl' := (hl.emit (e := .resuming w.now.nextJob.pos) id).idles hi
    have hstat : ∀ q < w.now.next, c.rawget q "status" = w.now.rawget q "status" := hi.status
    have hrec := ledger_recordFirst (j := ⟨f,w.now.attr o "name",1,.nil⟩) hl'
      (hlt.trans_le hi.next) ((hstat o hlt).trans hnil) (by rw [hi.count]; exact hroom)
      hi.pos.ge (by rw [hi.running]; exact count_nil_running h.toLedger)
      (fun v hv => yields_of_resumeCommand E ((congrArg Prod.fst hr).trans (congrArg Outcome.ret hv)))
      (fun k hk => by
        rw [hi.registry]
        rcases hname with ⟨k',hn,hfind⟩ | ⟨_,hn⟩ <;> rw [hn] at hk <;> cases hk
        exact hfind)
      (hname.imp (fun ⟨k,hn,_⟩ => ⟨k,hn⟩) id) (able_of_command h.toLedger hm hf)
    apply wp_bind_of hrec
    · rintro _ w' ⟨_,hl,hmark,hstarts,hroom',hcount,hjobs⟩
      rw [wp_bind_emit,wp_bind_core]
      have hs : w'.now.rawget o "status" ≠ .nil := by
        rw [hmark.status]
        exact toValue_ne_nil _
      have hother : ∀ q < w.now.next, q ≠ o → w'.now.rawget q "status" = w.now.rawget q "status" :=
        fun q hq hne => (hmark.others q (hq.trans_le hi.next) hne).trans (hstat q hq)
      have ho : o < B.origin.next := B.ready.sound.registered hm
      refine ⟨(hl.emit id).books (i := w.now.nextJob.pos) h hnil ?_ (fun _ => ⟨hs,ho⟩) ?_ ?_,
        hi.next.trans hmark.next,hother,?_,hi.count.ge.trans hcount,?_,?_⟩
      · rw [starts_emit id,hstarts]
        rfl
      · intro q hq
        by_cases he : q = o
        · exact he ▸ hs
        · intro hq'
          exact hq ((hother q (h.allocated hq) he).symm.trans hq')
      · intro i' j' hl'
        rcases hjobs i' j' hl' with hold | ⟨rfl,v,hv,rfl⟩
        · rw [hi.running] at hold
          exact h.jobs i' j' hold
        · exact jobOk_started h hk hcmd hf (hyield v hv)
      · refine hroom'.imp_right fun hr => ?_
        have hv : w'.now.attr o "status" = signal.status.toValue := by
          rw [Core.attr_eq_rawget hs,hmark.status]
        rw [hr] at hv
        exact congrArg Outcome.ret hv
      · rintro v hv
        rw [← Outcome.ret.inj hv]
        exact (Core.attr_eq_rawget hs).symm
      · rintro v hv
        rw [← Outcome.ret.inj hv]
        exact fun hn => hs ((Core.attr_eq_rawget hs).symm.trans hn)
    · rintro e w' ⟨hret,_⟩
      cases hret
    · rintro w' ⟨hret,_⟩
      cases hret

end Target

end Build
end Presto

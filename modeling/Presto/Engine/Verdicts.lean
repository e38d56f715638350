import Presto.Engine.Fails
import Presto.Engine.MessageFrame

/-! Why a target has been given up, and what has been tried: an invariant of every step of a build. -/
namespace Presto
open Program Traced

theorem StatusStep.of_error {v : Value} (h : StatusStep Status.error.toValue v) : v = Status.error.toValue := by
  generalize hu : Status.error.toValue = u at h
  cases h with
  | same => rfl
  | start => cases hu
  | finish => cases hu

namespace Build
variable {E : Env} {B : Build E} {bad : ObjId → Prop} {w w' w₀ w₁ : World} {o self dep : ObjId} {m n name : String}
  {ks : List ObjId} {l : List String} {b : Pass} {α : Type}

/-- What a failure of `o` is due to. -/
inductive Blamed (B : Build E) (bad : ObjId → Prop) (w : World) (o : ObjId) : Prop
  | command : Touched w o → (B.origin.attr o "command").truthy → ¬B.origin.Fresh false o → bad o → Blamed B bad w o
  | dep (k : String) : k ∈ B.origin.deps o → B.origin.Fails bad k → Blamed B bad w o
  | rule : ¬B.origin.Fresh false o → (B.origin.attr o "command").truthy = false → Blamed B bad w o

theorem Blamed.fails (h : B.Blamed bad w o) (ht : B.Target m o) : B.origin.Fails bad m := by
  cases h with
  | command _ hc hold hbad => exact .command ht.1 ht.2 hold hc hbad
  | dep k hk hfails => exact .dep ht.1 ht.2 hk hfails
  | rule hold hc => exact .rule ht.1 ht.2 hold hc

theorem Blamed.mono {P : Event → Prop} (h : B.Blamed bad w o) (he : Emits P w w') : B.Blamed bad w' o := by
  cases h with
  | command ht hc hold hbad => exact .command (ht.mono he) hc hold hbad
  | dep k hk hfails => exact .dep k hk hfails
  | rule hold hc => exact .rule hold hc

namespace Signs
variable {S : B.Signs}

/-- The name `n` has been gone into as far as it can be. -/
def Tried (S : B.Signs) (c : Core) (n : String) : Prop :=
  S.done c n ∨ B.origin.registry n = .nil ∨ ∃ o, B.Target n o ∧ c.rawget o "status" = Status.error.toValue

theorem Tried.mono {c c' : Core} (h : S.Tried c n) (hn : B.origin.next ≤ c.next) (ha : c.Advances c') :
    S.Tried c' n := by
  obtain h | h | ⟨o,ht,hs⟩ := h
  · exact .inl (h.mono hn ha)
  · exact .inr (.inl h)
  · refine .inr (.inr ⟨o,ht,?_⟩)
    have hstep := ha.2 o (ht.lt.trans_le hn)
    rw [hs] at hstep
    exact hstep.of_error

/-- No target has been given up that does not fail. With `-k` what it depends on has been tried all the same. -/
structure Verdicts (S : B.Signs) (bad : ObjId → Prop) (w : World) : Prop where
  blamed : ∀ m o, B.Target m o → w.now.rawget o "status" = Status.error.toValue → B.Blamed bad w o
  failed : ∀ m o, B.Target m o → w.now.rawget o "dep_status" = Status.error.toValue →
    ∃ k ∈ B.origin.deps o, B.origin.Fails bad k
  tried : E.flags.keepGoing = true → ∀ m o, B.Target m o → w.now.rawget o "status" = Status.error.toValue →
    ∀ k ∈ B.origin.deps o, S.Tried w.now k
  pruned : E.flags.keepGoing = true → ∀ m o, B.Target m o → ∀ k ∈ B.origin.deps o, k ∉ w.now.deps o → S.Tried w.now k
  printable : ∀ o < w.now.next, (w.now.rawget o "errmsg").Printable
  names : ∀ o, B.Knows w o → ∃ s, w.now.rawget o "deps" = .names s
  slate : ∀ o < w.now.next, w.now.Slate o

/-- A step that gives nothing up. -/
theorem Verdicts.move (h : S.Verdicts bad w) (hb : B.Ledger w) (hadv : w.now.Advances w'.now)
    (hstatus : ∀ m o, B.Target m o → w'.now.rawget o "status" = Status.error.toValue →
      w.now.rawget o "status" = Status.error.toValue)
    (hm : Mute w w') : S.Verdicts bad w' where
  blamed m o ht hs := (h.blamed m o ht (hstatus m o ht hs)).mono hm.emits
  failed m o ht hs := by
    rw [hm.kept o (ht.lt.trans_le hb.stays.next) _ (by decide)] at hs
    exact h.failed m o ht hs
  tried hk m o ht hs k hmem := (h.tried hk m o ht (hstatus m o ht hs) k hmem).mono hb.stays.next hadv
  pruned hk m o ht k hmem hno := by
    have hlt := ht.lt.trans_le hb.stays.next
    have hdeps : w'.now.deps o = w.now.deps o := Core.deps_congr (hm.kept o hlt _ (by decide))
    rw [hdeps] at hno
    exact (h.pruned hk m o ht k hmem hno).mono hb.stays.next hadv
  printable o ho := by
    by_cases hlt : o < w.now.next
    · rw [hm.kept o hlt _ (by decide)]
      exact h.printable o hlt
    · exact .inl (hm.fresh o (not_lt.mp hlt) ho).1
  names o hk := by
    by_cases hlt : o < w.now.next
    · have hk' : B.Knows w o := hk.imp_right fun hlater => ⟨hlater.1,hlt⟩
      rw [hm.kept o hlt _ (by decide)]
      exact h.names o hk'
    · obtain ⟨m,ht⟩ | ⟨_,ho⟩ := hk
      · exact absurd (Target.lt ht |>.trans_le hb.stays.next) hlt
      · exact (hm.fresh o (not_lt.mp hlt) ho).2.1
  slate o ho := by
    by_cases hlt : o < w.now.next
    · exact hm.slate o hlt (h.slate o hlt)
    · exact (hm.fresh o (not_lt.mp hlt) ho).2.2

theorem Verdicts.idles (h : S.Verdicts bad w) (hb : B.Ledger w) (hi : w.now.Idles B.guarded w'.now)
    (hm : Mute w w') : S.Verdicts bad w' :=
  h.move hb hi.advances (fun _ o ht hs => (hi.status o (ht.lt.trans_le hb.stays.next)).symm.trans hs) hm

/-- One target is given up. -/
theorem Verdicts.giveUp (h : S.Verdicts bad w) (hb : B.Ledger w) (hadv : w.now.Advances w'.now)
    (hnext : w'.now.next = w.now.next)
    (hstatus : ∀ q, q ≠ o → w'.now.rawget q "status" = w.now.rawget q "status")
    (hraw : ∀ q, ∀ k ∈ ["deps","dep_status","deps_newer"], w'.now.rawget q k = w.now.rawget q k)
    (herr : ∀ q, w'.now.rawget q "errmsg" = w.now.rawget q "errmsg" ∨ (w'.now.rawget q "errmsg").Printable)
    (he : Emits (fun _ => True) w w') (hblamed : ∀ m, B.Target m o → B.Blamed bad w' o)
    (htried : E.flags.keepGoing = true → ∀ k ∈ B.origin.deps o, S.Tried w.now k) : S.Verdicts bad w' where
  blamed m q ht hs := by
    by_cases hq : q = o
    · subst hq
      exact hblamed m ht
    · rw [hstatus q hq] at hs
      exact (h.blamed m q ht hs).mono he
  failed m q ht hs := by
    rw [hraw q _ (by decide)] at hs
    exact h.failed m q ht hs
  tried hk m q ht hs k hmem := by
    by_cases hq : q = o
    · subst hq
      exact (htried hk k hmem).mono hb.stays.next hadv
    · rw [hstatus q hq] at hs
      exact (h.tried hk m q ht hs k hmem).mono hb.stays.next hadv
  pruned hk m q ht k hmem hno := by
    have hdeps : w'.now.deps q = w.now.deps q := Core.deps_congr (hraw q _ (by decide))
    rw [hdeps] at hno
    exact (h.pruned hk m q ht k hmem hno).mono hb.stays.next hadv
  printable q hq := by
    obtain hsame | hp := herr q
    · rw [hsame]
      exact h.printable q (hq.trans_eq hnext)
    · exact hp
  names q hk := by
    rw [hraw q _ (by decide)]
    exact h.names q (hk.imp_right fun hlater => ⟨hlater.1,hlater.2.trans_eq hnext⟩)
  slate q hq := by
    unfold Core.Slate
    rw [hraw q _ (by decide)]
    exact h.slate q (hq.trans_eq hnext)

/-- A target that has no status is marked. -/
theorem Verdicts.mark (h : S.Verdicts bad w) (hb : B.Ledger w) (hnil : w.now.rawget o "status" = .nil)
    (hblamed : ∀ m, B.Target m o → B.Blamed bad w o)
    (htried : E.flags.keepGoing = true → ∀ k ∈ B.origin.deps o, S.Tried w.now k) : S.Verdicts bad { w with
      now := w.now.rawset o "status" Status.error.toValue
      trace := (.marked o,w.now.rawset o "status" Status.error.toValue)::w.trace } := by
  have he : Emits (fun _ => True) w { w with
      now := w.now.rawset o "status" Status.error.toValue
      trace := (.marked o,w.now.rawset o "status" Status.error.toValue)::w.trace } :=
    ⟨[(.marked o,w.now.rawset o "status" Status.error.toValue)],rfl,by simp⟩
  refine h.giveUp (o := o) hb ?_ rfl (fun q hq => by simp [hq]) (fun q k hk => ?_) (fun q => .inl (by simp)) he
    (fun m ht => (hblamed m ht).mono he) htried
  · exact Core.advances_rawset (by rw [hnil]; exact .start .error (by simp))
  · change (w.now.rawset o "status" Status.error.toValue).rawget q k = _
    rw [Core.rawget_rawset,if_neg]
    intro hq
    rw [hq.2] at hk
    exact absurd hk (by decide)

/-- A target is marked that fails. -/
theorem Verdicts.mark_fails (h : S.Verdicts bad w) (hb : B.Books w) (hnil : w.now.rawget self "status" = .nil)
    (hblamed : ∀ m, B.Target m self → B.Blamed bad w self)
    (hsource : ∀ m, B.Leads w₀ m self → B.origin.registry m = .nil → B.origin.files.exists m = false)
    (htried : E.flags.keepGoing = true → ∀ k ∈ B.origin.deps self, S.Tried w.now k) :
    S.Verdicts bad { w with
      now := w.now.rawset self "status" Status.error.toValue
      trace := (.marked self,w.now.rawset self "status" Status.error.toValue)::w.trace } ∧
    ∀ m, B.Leads w₀ m self → B.origin.Fails bad m ∧
      S.Tried (w.now.rawset self "status" Status.error.toValue) m := by
  refine ⟨h.mark hb.toLedger hnil hblamed htried,fun m hl => ?_⟩
  obtain ht | hn := id hl
  · exact ⟨(hblamed m ht).fails ht,.inr (.inr ⟨self,ht,by simp⟩)⟩
  · exact ⟨.source hn.1 (hsource m hl hn.1),.inr (.inl hn.1)⟩

/-- A dependency that fails is dropped. -/
theorem Verdicts.drop (h : S.Verdicts bad w) (hb : B.Books w) (hk : B.Knows w o) {s : Finset String}
    (hs : w.now.rawget o "deps" = .names s) (hname : name ∈ B.origin.deps o) (hfails : B.origin.Fails bad name)
    (htried : S.Tried w.now name) : S.Verdicts bad { w with now := w.now.dropDeps o (s.erase name) } := by
  have hdeps : w.now.deps o = s := Core.deps_of_rawget hs
  have hsub : s.erase name ⊆ w.now.deps o := by
    rw [hdeps]
    exact Finset.erase_subset name s
  have hadv : w.now.Advances (w.now.dropDeps o (s.erase name)) :=
    (Core.idles_dropDeps (K := B.guarded) (hk.lt_next hb) hsub).advances
  have hother : ∀ q, q ≠ o → ∀ k, (w.now.dropDeps o (s.erase name)).rawget q k = w.now.rawget q k :=
    fun q hq k => Core.dropDeps_other hq k
  have hraw : ∀ q, ∀ k ∈ ["errmsg","deps_newer"],
      (w.now.dropDeps o (s.erase name)).rawget q k = w.now.rawget q k := by
    intro q k hk
    simp only [List.mem_cons,List.not_mem_nil,or_false] at hk
    obtain rfl | rfl := hk <;> simp [Core.dropDeps]
  constructor
  · intro m q ht hq
    exact (h.blamed m q ht (by simpa using hq)).mono (P := fun _ => True) ⟨[],rfl,by simp⟩
  · intro m q ht hq
    by_cases he : q = o
    · subst he
      exact ⟨name,hname,hfails⟩
    · exact h.failed m q ht ((hother q he _).symm.trans hq)
  · intro hkeep m q ht hq k hmem
    exact (h.tried hkeep m q ht (by simpa using hq) k hmem).mono hb.stays.next hadv
  · intro hkeep m q ht k hmem hno
    by_cases he : q = o
    · subst he
      change k ∉ (w.now.dropDeps q (s.erase name)).deps q at hno
      have hnew : (w.now.dropDeps q (s.erase name)).deps q = s.erase name :=
        Core.deps_of_rawget (by simp [Core.dropDeps])
      rw [hnew,Finset.mem_erase,not_and_or,not_not] at hno
      obtain rfl | hno := hno
      · exact htried.mono hb.stays.next hadv
      · rw [← hdeps] at hno
        exact (h.pruned hkeep m q ht k hmem hno).mono hb.stays.next hadv
    · change k ∉ (w.now.dropDeps o (s.erase name)).deps q at hno
      rw [Core.deps_congr (hother q he _)] at hno
      exact (h.pruned hkeep m q ht k hmem hno).mono hb.stays.next hadv
  · intro q hq
    change ((w.now.dropDeps o (s.erase name)).rawget q "errmsg").Printable
    rw [hraw q _ (by decide)]
    exact h.printable q hq
  · intro q hq
    by_cases he : q = o
    · subst he
      exact ⟨s.erase name,by simp [Core.dropDeps]⟩
    · change ∃ t, (w.now.dropDeps o (s.erase name)).rawget q "deps" = .names t
      rw [hother q he]
      exact h.names q hq
  · intro q hq
    change (w.now.dropDeps o (s.erase name)).Slate q
    unfold Core.Slate
    rw [hraw q _ (by decide)]
    exact h.slate q hq

/-- A message is left. -/
theorem Verdicts.note (h : S.Verdicts bad w) (hb : B.Ledger w) {v : Value} (hv : v.Printable) :
    S.Verdicts bad { w with now := w.now.rawset o "errmsg" v } := by
  have hraw : ∀ q k, k ≠ "errmsg" → (w.now.rawset o "errmsg" v).rawget q k = w.now.rawget q k :=
    fun q k hk => by rw [Core.rawget_rawset,if_neg fun he => hk he.2]
  have hdeps : ∀ q, (w.now.rawset o "errmsg" v).deps q = w.now.deps q := fun q => Core.deps_congr (hraw q _ (by decide))
  have htried : ∀ {n}, S.Tried w.now n → S.Tried (w.now.rawset o "errmsg" v) n := fun hn =>
    hn.mono hb.stays.next (Core.advances_note o v)
  constructor
  · intro m q ht hs
    exact (h.blamed m q ht ((hraw q _ (by decide)).symm.trans hs)).mono (P := fun _ => True) ⟨[],rfl,by simp⟩
  · exact fun m q ht hs => h.failed m q ht ((hraw q _ (by decide)).symm.trans hs)
  · exact fun hk m q ht hs k hmem => htried (h.tried hk m q ht ((hraw q _ (by decide)).symm.trans hs) k hmem)
  · intro hk m q ht k hmem hno
    change k ∉ (w.now.rawset o "errmsg" v).deps q at hno
    rw [hdeps q] at hno
    exact htried (h.pruned hk m q ht k hmem hno)
  · intro q hq
    change ((w.now.rawset o "errmsg" v).rawget q "errmsg").Printable
    rw [Core.rawget_rawset]
    split_ifs
    · exact hv
    · exact h.printable q hq
  · intro q hk
    change ∃ s, (w.now.rawset o "errmsg" v).rawget q "deps" = .names s
    rw [hraw q _ (by decide)]
    exact h.names q hk
  · intro q hq
    change (w.now.rawset o "errmsg" v).Slate q
    unfold Core.Slate
    rw [hraw q _ (by decide)]
    exact h.slate q hq

/-- The first resume of a job is recorded. -/
theorem Verdicts.recordFirst (h : S.Verdicts bad w) (hb : B.Ledger w) (hnil : w.now.rawget o "status" = .nil) {i : ℕ}
    {j : Job} {signal : Signal} (hraised : ∀ v, signal = .raised v → v.Printable ∧
      (∀ m, B.Target m o → B.Blamed bad w o) ∧ (E.flags.keepGoing = true → ∀ k ∈ B.origin.deps o, S.Tried w.now k)) :
    wp (recordFirst o i j signal) (Rets fun _ w' => (S.Verdicts bad w' ∧ w.now.Grows w'.now) ∧
      w'.now.rawget o "status" = signal.status.toValue ∧ Emits (fun _ => True) w w') w := by
  have hset : ∀ {c : Core} {s : Status}, s ≠ .none → s ≠ .error → c.next = w.now.next →
      (∀ q k, c.rawget q k = (w.now.rawset o "status" s.toValue).rawget q k) →
      (S.Verdicts bad { w with now := c } ∧ w.now.Grows c) ∧ c.rawget o "status" = s.toValue ∧
        Emits (fun _ => True) w { w with now := c } := by
    intro c s hs herr hnext hraw
    have hother : ∀ q, ∀ k ∈ ["errmsg","deps","dep_status","deps_newer"], c.rawget q k = w.now.rawget q k := by
      intro q k hk
      rw [hraw,Core.rawget_rawset,if_neg]
      intro he
      rw [he.2] at hk
      exact absurd hk (by decide)
    have hself : c.rawget o "status" = s.toValue := by simp [hraw]
    have hmute : w.now.Mute c := Core.mute_of_raw hnext hother
    have hemits : Emits (fun _ => True) w { w with now := c } := ⟨[],rfl,by simp⟩
    have hadv : w.now.Advances c := advances_mark hs hnil hnext.ge hself fun q _ hne => by simp [hraw,hne]
    have hmove : S.Verdicts bad { w with now := c } := by
      refine h.move hb hadv (fun m q ht hq => ?_) ⟨hmute,hemits⟩
      by_cases he : q = o
      · subst he
        have hq : c.rawget q "status" = Status.error.toValue := hq
        rw [hself] at hq
        cases s <;> first | exact absurd rfl herr | cases hq
      · have hq : c.rawget q "status" = Status.error.toValue := hq
        rwa [hraw,Core.rawget_rawset,if_neg fun h => he h.1] at hq
    exact ⟨⟨hmove,hmute.toGrows⟩,hself,hemits⟩
  unfold Presto.recordFirst
  rw [wp_bind_modify_quietly]
  cases signal with
  | yielded v => exact hset (s := .running) (by simp) (by simp) rfl fun _ _ => rfl
  | finished => exact hset (s := .updated) (by simp) (by simp) rfl fun _ _ => rfl
  | raised v =>
    obtain ⟨hv,hblamed,htried⟩ := hraised v rfl
    have hemits : Emits (fun _ => True) w { w with
        now := w.now.recordStart o i j (.raised v)
        trace := (.marked o,w.now.recordStart o i j (.raised v))::w.trace } :=
      ⟨[(.marked o,w.now.recordStart o i j (.raised v))],rfl,by simp⟩
    have hself : (w.now.recordStart o i j (.raised v)).rawget o "status" = Status.error.toValue := by
      simp [Core.recordStart,Signal.status]
    have hadv : w.now.Advances (w.now.recordStart o i j (.raised v)) :=
      advances_mark (s := .error) (by simp) hnil le_rfl hself fun q _ hne => by simp [Core.recordStart,hne]
    have hverdicts : S.Verdicts bad { w with
        now := w.now.recordStart o i j (.raised v)
        trace := (.marked o,w.now.recordStart o i j (.raised v))::w.trace } := by
      refine h.giveUp (o := o) hb hadv rfl (fun q hq => by simp [Core.recordStart,hq]) (fun q k hk => ?_) (fun q => ?_)
        hemits (fun m ht => (hblamed m ht).mono hemits) htried
      · simp only [List.mem_cons,List.not_mem_nil,or_false] at hk
        obtain rfl | rfl | rfl := hk <;> simp [Core.recordStart]
      · change (w.now.recordStart o i j (.raised v)).rawget q "errmsg" = w.now.rawget q "errmsg" ∨
          ((w.now.recordStart o i j (.raised v)).rawget q "errmsg").Printable
        by_cases hq : q = o
        · right
          simpa [Core.recordStart,hq] using hv
        · left
          simp [Core.recordStart,hq]
    refine ⟨⟨hverdicts,?_⟩,hself,hemits⟩
    exact trans_of Core.Grows (Core.grows_rawset (by decide)) (Core.grows_rawset (by decide))

theorem Verdicts.emit (h : S.Verdicts bad w) (e : Event) : S.Verdicts bad { w with trace := (e,w.now)::w.trace } :=
  ⟨fun m q ht hs => (h.blamed m q ht hs).mono (P := fun _ => True) ⟨[(e,w.now)],rfl,by simp⟩,h.failed,h.tried,h.pruned,
    h.printable,h.names,h.slate⟩

end Signs
end Build
end Presto

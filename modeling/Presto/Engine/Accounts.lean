import Presto.Engine.Ledger

/-! The accounts of the jobs, and what each step of a job does to them. -/
namespace Presto
open Program

/-- A lookup of `k` gives the registered target `o`. -/
structure Finds (registry : String → Value) (k : String) (o : ObjId) : Prop where
  bound : registry k = .obj o
  clean : hasBackslash k = false
  proper : k ≠ "defined"

theorem Finds.unique {registry : String → Value} {k : String} {o p : ObjId}
    (h : Finds registry k o) (h' : Finds registry k p) : o = p := by
  have hb := h.bound
  rw [h'.bound] at hb
  exact (Value.obj.inj hb).symm

/-- The job is one of the target `o`. -/
def Job.Names (registry : String → Value) (j : Job) (o : ObjId) : Prop :=
  ∃ k, j.target = .str k ∧ Finds registry k o

theorem run_targetIndex {c : Core} {k : String} {o : ObjId} (h : Finds c.registry k o) :
    targetIndex k c = (.ret (.obj o),c) := by
  simp [targetIndex,h.proper,h.clean,h.bound]

/-- A status that a target can have. -/
def StatusOk (v : Value) : Prop := v = .nil ∨ ∃ s, s ≠ Status.none ∧ v = s.toValue

namespace Core

/-- What holds between the running jobs, their counter and the statuses. A target that runs
is listed as long as no target can lose its name, and is one of those that are able to. -/
structure Accounts (c : Core) (E : Env) (named : Prop) (able : ObjId → Prop) : Prop where
  status : ∀ o < c.next, StatusOk (c.rawget o "status")
  count : c.count = c.running.keys.card
  bound : c.count ≤ E.slots
  suspended : ∀ i j, c.running.lookup i = some j → j.suspended E i = true
  ids : ∀ i j, c.running.lookup i = some j → i ≤ c.pos
  owner : ∀ i j k, c.running.lookup i = some j → j.target = .str k →
    ∃ o < c.next, Finds c.registry k o ∧ c.rawget o "status" = Status.running.toValue
  unique : ∀ i i' j j' o, c.running.lookup i = some j → c.running.lookup i' = some j' →
    j.Names c.registry o → j'.Names c.registry o → i = i'
  target : ∀ i j, c.running.lookup i = some j →
    (∃ k, j.target = .str k) ∨ ¬named ∧ j.target = .bool true
  listed : named → ∀ o < c.next, c.rawget o "status" = Status.running.toValue →
    ∃ i j, c.running.lookup i = some j ∧ j.Names c.registry o
  able : ∀ o < c.next, c.rawget o "status" = Status.running.toValue → able o

variable {c c' : Core} {E : Env} {named : Prop} {able : ObjId → Prop} {K : Finset String}

/-- Nothing that is no business of the jobs touches the accounts. -/
theorem Accounts.idles (h : c.Accounts E named able) (hi : c.Idles K c') :
    c'.Accounts E named able where
  status o ho := by
    by_cases hlt : o < c.next
    · rw [hi.status o hlt]
      exact h.status o hlt
    · exact .inl (hi.unstarted o (not_lt.mp hlt) ho)
  count := by rw [hi.count,hi.running,h.count]
  bound := by rw [hi.count]; exact h.bound
  suspended i j := by rw [hi.running]; exact h.suspended i j
  ids i j := by rw [hi.running,hi.pos]; exact h.ids i j
  owner i j k := by
    rw [hi.running,hi.registry]
    intro hj hk
    obtain ⟨o,ho,hf,hs⟩ := h.owner i j k hj hk
    exact ⟨o,ho.trans_le hi.next,hf,by rw [hi.status o ho,hs]⟩
  unique i i' j j' o := by
    rw [hi.running,hi.registry]
    exact h.unique i i' j j' o
  target i j := by rw [hi.running]; exact h.target i j
  listed hn o ho hs := by
    rw [hi.running,hi.registry]
    by_cases hlt : o < c.next
    · rw [hi.status o hlt] at hs
      exact h.listed hn o hlt hs
    · rw [hi.unstarted o (not_lt.mp hlt) ho] at hs
      cases hs
  able o ho hs := by
    by_cases hlt : o < c.next
    · rw [hi.status o hlt] at hs
      exact h.able o hlt hs
    · rw [hi.unstarted o (not_lt.mp hlt) ho] at hs
      cases hs

/-- A new job number. -/
theorem Accounts.nextJob (h : c.Accounts E named able) : c.nextJob.Accounts E named able where
  status := h.status
  count := h.count
  bound := h.bound
  suspended := h.suspended
  ids i j hj := (h.ids i j hj).trans (Nat.le_succ _)
  owner := h.owner
  unique := h.unique
  target := h.target
  listed := h.listed
  able := h.able

/-- A target that has no status gets one that is not `running`. -/
theorem Accounts.settle (h : c.Accounts E named able) {o : ObjId}
    (hnil : c.rawget o "status" = .nil) {s : Status} (hs : s = .updated ∨ s = .error) :
    (c.rawset o "status" s.toValue).Accounts E named able where
  status p hp := by
    rw [rawget_rawset]
    split_ifs
    · exact .inr ⟨s,by rcases hs with rfl | rfl <;> simp,rfl⟩
    · exact h.status p hp
  count := h.count
  bound := h.bound
  suspended := h.suspended
  ids := h.ids
  owner i j k hj hk := by
    obtain ⟨p,hp,hf,hr⟩ := h.owner i j k hj hk
    refine ⟨p,hp,hf,?_⟩
    rw [rawget_rawset,if_neg,hr]
    rintro ⟨rfl,_⟩
    rw [hnil] at hr
    cases hr
  unique := h.unique
  target := h.target
  listed hn p hp hr := by
    rw [rawget_rawset] at hr
    split_ifs at hr
    · rcases hs with rfl | rfl <;> cases hr
    · exact h.listed hn p hp hr
  able p hp hr := by
    rw [rawget_rawset] at hr
    split_ifs at hr
    · rcases hs with rfl | rfl <;> cases hr
    · exact h.able p hp hr

/-- A job of the table with one more job is the new one or an old one. -/
theorem lookup_insert_running {i i' : ℕ} {j j' : Job} (h : (c.running.insert i j).lookup i' = some j') :
    i' = i ∧ j' = j ∨ i' ≠ i ∧ c.running.lookup i' = some j' := by
  by_cases he : i' = i
  · subst he
    rw [Finmap.lookup_insert] at h
    exact .inl ⟨rfl,(Option.some.inj h).symm⟩
  · rw [Finmap.lookup_insert_of_ne _ he] at h
    exact .inr ⟨he,h⟩

theorem Accounts.count_insertJob (h : c.Accounts E named able) {i : ℕ} (hfresh : c.running.lookup i = none) (j : Job) :
    (c.insertJob i j).count = (c.insertJob i j).running.keys.card := by
  change c.count+1 = ((c.running.insert i j).keys.card : ℤ)
  have hkeys : (c.running.insert i j).keys = insert i c.running.keys := by
    ext i'
    rw [Finset.mem_insert,Finmap.mem_keys,Finmap.mem_keys,Finmap.mem_insert]
  rw [hkeys,Finset.card_insert_of_notMem,h.count]
  · push_cast
    rfl
  · rw [Finmap.mem_keys,← Finmap.lookup_eq_none]
    exact hfresh

/-- A target that has no status starts to run as job `i`. -/
theorem Accounts.insertJob (h : c.Accounts E named able) {o : ObjId} (ho : o < c.next)
    (hnil : c.rawget o "status" = .nil) (hroom : c.count < E.slots) {i : ℕ} (hi : i ≤ c.pos)
    (hfresh : c.running.lookup i = none) {j : Job} (hj : j.suspended E i = true)
    (htarget : ∀ k, j.target = .str k → Finds c.registry k o)
    (hnamed : (∃ k, j.target = .str k) ∨ ¬named ∧ j.target = .bool true) (hable : able o) :
    ((c.insertJob i j).rawset o "status" Status.running.toValue).Accounts E named able := by
  have hother : ∀ i' j', c.running.lookup i' = some j' → ¬j'.Names c.registry o := by
    rintro i' j' hl ⟨k,hk,hf⟩
    obtain ⟨p,_,hf',hs⟩ := h.owner i' j' k hl hk
    rw [← hf.unique hf',hnil] at hs
    cases hs
  constructor
  · intro p hp
    rw [rawget_rawset]
    split_ifs
    · exact .inr ⟨.running,by simp,rfl⟩
    · exact h.status p hp
  · exact h.count_insertJob hfresh j
  · exact Int.add_one_le_of_lt hroom
  · intro i' j' hl
    rcases lookup_insert_running hl with ⟨rfl,rfl⟩ | ⟨_,hl⟩
    · exact hj
    · exact h.suspended i' j' hl
  · intro i' j' hl
    rcases lookup_insert_running hl with ⟨rfl,_⟩ | ⟨_,hl⟩
    · exact hi
    · exact h.ids i' j' hl
  · intro i' j' k hl hk
    rcases lookup_insert_running hl with ⟨rfl,rfl⟩ | ⟨_,hl⟩
    · exact ⟨o,ho,htarget k hk,by simp⟩
    · obtain ⟨p,hp,hf,hs⟩ := h.owner i' j' k hl hk
      refine ⟨p,hp,hf,?_⟩
      rw [rawget_rawset]
      split_ifs
      · rfl
      · exact hs
  · intro i₁ i₂ j₁ j₂ p h₁ h₂ hn₁ hn₂
    rcases lookup_insert_running h₁ with ⟨rfl,rfl⟩ | ⟨_,hl₁⟩ <;> rcases lookup_insert_running h₂ with ⟨rfl,rfl⟩ | ⟨_,hl₂⟩
    · rfl
    · obtain ⟨k,hk,hf⟩ := hn₁
      obtain rfl := hf.unique (htarget k hk)
      exact absurd hn₂ (hother i₂ j₂ hl₂)
    · obtain ⟨k,hk,hf⟩ := hn₂
      obtain rfl := hf.unique (htarget k hk)
      exact absurd hn₁ (hother i₁ j₁ hl₁)
    · exact h.unique i₁ i₂ j₁ j₂ p hl₁ hl₂ hn₁ hn₂
  · intro i' j' hl
    rcases lookup_insert_running hl with ⟨_,rfl⟩ | ⟨_,hl⟩
    · exact hnamed
    · exact h.target i' j' hl
  · intro hn p hp hs
    rw [rawget_rawset] at hs
    split_ifs at hs with he
    · obtain ⟨rfl,_⟩ := he
      obtain ⟨k,hk⟩ := hnamed.resolve_right fun hb => hb.1 hn
      exact ⟨i,j,Finmap.lookup_insert _,k,hk,htarget k hk⟩
    · obtain ⟨i',j',hl,hnames⟩ := h.listed hn p hp hs
      refine ⟨i',j',?_,hnames⟩
      change (c.running.insert i j).lookup i' = some j'
      rw [Finmap.lookup_insert_of_ne _ (by rintro rfl; rw [hfresh] at hl; cases hl),hl]
  · intro p hp hs
    rw [rawget_rawset] at hs
    split_ifs at hs with he
    · exact he.1 ▸ hable
    · exact h.able p hp hs

/-- A job yields once more. -/
theorem Accounts.yieldJob (h : c.Accounts E named able) {i : ℕ} {j : Job}
    (hl : c.running.lookup i = some j) (v : Value) (hy : j.command.yields E j.target i j.resumed = true) :
    (c.yieldJob i j v).Accounts E named able := by
  have hlookup : ∀ i' j', (c.yieldJob i j v).running.lookup i' = some j' →
      ∃ j₀, c.running.lookup i' = some j₀ ∧ j₀.target = j'.target ∧ j'.suspended E i' = true := by
    intro i' j' hl'
    rcases lookup_insert_running hl' with ⟨rfl,rfl⟩ | ⟨_,hold⟩
    · exact ⟨j,hl,rfl,hy⟩
    · exact ⟨j',hold,rfl,h.suspended i' j' hold⟩
  have hnames : ∀ {j₀ j' : Job} {o : ObjId}, j₀.target = j'.target → j'.Names c.registry o →
      j₀.Names c.registry o := fun ht ⟨k,hk,hf⟩ => ⟨k,ht.trans hk,hf⟩
  constructor
  · exact h.status
  · have hkeys : (c.yieldJob i j v).running.keys = c.running.keys := by
      ext i'
      rw [Finmap.mem_keys,Finmap.mem_keys]
      refine (Finmap.mem_insert ..).trans ⟨?_,.inr⟩
      rintro (rfl | hm)
      · exact Finmap.mem_of_lookup_eq_some hl
      · exact hm
    change c.count = _
    rw [hkeys,h.count]
  · exact h.bound
  · intro i' j' hl'
    obtain ⟨_,_,_,hs⟩ := hlookup i' j' hl'
    exact hs
  · intro i' j' hl'
    obtain ⟨j₀,hl₀,_⟩ := hlookup i' j' hl'
    exact h.ids i' j₀ hl₀
  · intro i' j' k hl' hk
    obtain ⟨j₀,hl₀,ht,_⟩ := hlookup i' j' hl'
    exact h.owner i' j₀ k hl₀ (ht.trans hk)
  · intro i₁ i₂ j₁ j₂ o h₁ h₂ hn₁ hn₂
    obtain ⟨k₁,hk₁,ht₁,_⟩ := hlookup i₁ j₁ h₁
    obtain ⟨k₂,hk₂,ht₂,_⟩ := hlookup i₂ j₂ h₂
    exact h.unique i₁ i₂ k₁ k₂ o hk₁ hk₂ (hnames ht₁ hn₁) (hnames ht₂ hn₂)
  · intro i' j' hl'
    obtain ⟨j₀,hl₀,ht,_⟩ := hlookup i' j' hl'
    rw [← ht]
    exact h.target i' j₀ hl₀
  · intro hn o ho hs
    obtain ⟨i',j',hl',k,hk,hf⟩ := h.listed hn o ho hs
    by_cases he : i' = i
    · subst he
      rw [hl] at hl'
      cases hl'
      exact ⟨i',_,Finmap.lookup_insert _,k,hk,hf⟩
    · refine ⟨i',j',?_,k,hk,hf⟩
      exact (Finmap.lookup_insert_of_ne _ he).trans hl'
  · exact h.able

theorem lookup_removeJob {i i' : ℕ} {j : Job} (h : (c.removeJob i).running.lookup i' = some j) :
    i' ≠ i ∧ c.running.lookup i' = some j := by
  change (c.running.erase i).lookup i' = some j at h
  by_cases he : i' = i
  · subst he
    rw [Finmap.lookup_erase] at h
    cases h
  · rw [Finmap.lookup_erase_ne he] at h
    exact ⟨he,h⟩

theorem Accounts.count_removeJob (h : c.Accounts E named able) {i : ℕ} {j : Job}
    (hl : c.running.lookup i = some j) :
    (c.removeJob i).count = (c.removeJob i).running.keys.card := by
  have hkeys : (c.removeJob i).running.keys = c.running.keys.erase i := by
    ext i'
    rw [Finset.mem_erase,Finmap.mem_keys,Finmap.mem_keys]
    exact Finmap.mem_erase
  have hmem : i ∈ c.running.keys := Finmap.mem_keys.mpr (Finmap.mem_of_lookup_eq_some hl)
  change c.count-1 = _
  rw [hkeys,Finset.card_erase_of_mem hmem,h.count]
  have hpos := Finset.card_pos.mpr ⟨i,hmem⟩
  omega

theorem Accounts.bound_removeJob (h : c.Accounts E named able) (i : ℕ) :
    (c.removeJob i).count ≤ E.slots := by
  have hb := h.bound
  change c.count-1 ≤ E.slots
  omega

/-- A job ends whose target has lost its name. -/
theorem Accounts.dropJob (h : c.Accounts E named able) {i : ℕ} {j : Job}
    (hl : c.running.lookup i = some j) (hnamed : ¬named) :
    (c.removeJob i).Accounts E named able where
  status := h.status
  count := h.count_removeJob hl
  bound := h.bound_removeJob i
  suspended i' j' hl' := h.suspended i' j' (lookup_removeJob hl').2
  ids i' j' hl' := h.ids i' j' (lookup_removeJob hl').2
  owner i' j' k hl' := h.owner i' j' k (lookup_removeJob hl').2
  unique i₁ i₂ j₁ j₂ p h₁ h₂ :=
    h.unique i₁ i₂ j₁ j₂ p (lookup_removeJob h₁).2 (lookup_removeJob h₂).2
  target i' j' hl' := h.target i' j' (lookup_removeJob hl').2
  listed hn := absurd hn hnamed
  able := h.able

/-- A job ends, and its target gets its last status. -/
theorem Accounts.removeJob (h : c.Accounts E named able) {i : ℕ} {j : Job}
    (hl : c.running.lookup i = some j) {o : ObjId} (ho : j.Names c.registry o) {s : Status}
    (hs : s = .updated ∨ s = .error) :
    ((c.removeJob i).rawset o "status" s.toValue).Accounts E named able where
  status p hp := by
    rw [rawget_rawset]
    split_ifs
    · exact .inr ⟨s,by rcases hs with rfl | rfl <;> simp,rfl⟩
    · exact h.status p hp
  count := h.count_removeJob hl
  bound := h.bound_removeJob i
  suspended i' j' hl' := h.suspended i' j' (lookup_removeJob hl').2
  ids i' j' hl' := h.ids i' j' (lookup_removeJob hl').2
  owner i' j' k hl' hk := by
    obtain ⟨hne,hold⟩ := lookup_removeJob hl'
    obtain ⟨p,hp,hf,hr⟩ := h.owner i' j' k hold hk
    refine ⟨p,hp,hf,?_⟩
    rw [rawget_rawset,if_neg]
    · exact hr
    · rintro ⟨rfl,_⟩
      exact hne (h.unique i' i j' j p hold hl ⟨k,hk,hf⟩ ho)
  unique i₁ i₂ j₁ j₂ p h₁ h₂ :=
    h.unique i₁ i₂ j₁ j₂ p (lookup_removeJob h₁).2 (lookup_removeJob h₂).2
  target i' j' hl' := h.target i' j' (lookup_removeJob hl').2
  listed hn p hp hr := by
    rw [rawget_rawset] at hr
    split_ifs at hr with he
    · rcases hs with rfl | rfl <;> cases hr
    · obtain ⟨i',j',hl',hnames⟩ := h.listed hn p hp hr
      refine ⟨i',j',?_,hnames⟩
      refine (Finmap.lookup_erase_ne ?_).trans hl'
      rintro rfl
      rw [hl] at hl'
      cases hl'
      obtain ⟨k,hk,hf⟩ := ho
      obtain ⟨k',hk',hf'⟩ := hnames
      rw [hk] at hk'
      cases hk'
      exact he ⟨hf'.unique hf,rfl⟩
  able p hp hr := by
    rw [rawget_rawset] at hr
    split_ifs at hr
    · rcases hs with rfl | rfl <;> cases hr
    · exact h.able p hp hr

end Core
end Presto

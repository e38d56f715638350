import Presto.Engine.Events
import Presto.Registry.Entries

/-! The books of a run: what all code of the engine leaves as it is, and what holds between the
table of running jobs, the counter and the statuses of the targets. -/
namespace Presto
open Program Traced

/-- A status that is stored, and how it can change. -/
inductive StatusStep : Value → Value → Prop
  | same (v : Value) : StatusStep v v
  | start (s : Status) (h : s ≠ .none) : StatusStep .nil s.toValue
  | finish (s : Status) (h : s = .updated ∨ s = .error) : StatusStep Status.running.toValue s.toValue

theorem StatusStep.trans {u v w : Value} (h : StatusStep u v) (h' : StatusStep v w) :
    StatusStep u w := by
  rcases h with _ | ⟨s,hs⟩ | ⟨s,hs⟩
  · exact h'
  · generalize hv : s.toValue = v at h'
    rcases h' with _ | ⟨t,ht⟩ | ⟨t,ht⟩
    · rw [← hv]
      exact .start s hs
    · exact .start t ht
    · refine .start t ?_
      rcases ht with rfl | rfl <;> simp
  · generalize hv : s.toValue = v at h'
    rcases h' with _ | ⟨t,ht⟩ | ⟨t,ht⟩
    · rw [← hv]
      exact .finish s hs
    · cases s <;> cases hv
    · rcases hs with rfl | rfl <;> cases hv

namespace Core

/-- The list of newer dependencies is no target. -/
def NewerOk (c : Core) (o : ObjId) : Prop :=
  c.rawget o "deps_newer" ≠ .proxy ∧ ∀ d, c.rawget o "deps_newer" ≠ .obj d

/-- Fields that the engine reads and never means to write. -/
def pinned : List String := ["name","command","bring_up_to_date"]

/-- A table made by a lookup. -/
structure Blank (K : Finset String) (c : Core) (o : ObjId) : Prop where
  chain : (c.heap o).chain = []
  isTarget : (c.heap o).isTarget
  own : ∀ k ∈ pinned, k ≠ "name" → c.rawget o k = .nil ∨ k ∉ K ∧ c.rawget o k = .bool true
  deps : c.deps o = ∅
  hasDeps : c.rawget o "deps" ≠ .nil
  newer : c.NewerOk o

/-- What all code of the engine keeps. A target that is registered as `deps_newer` may get
`true` in its fields, but not in those of `K`. -/
structure Stays (K : Finset String) (c c' : Core) : Prop where
  registry : c'.registry = c.registry
  defined : c'.defined = c.defined
  next : c.next ≤ c'.next
  chain : ∀ o < c.next, (c'.heap o).chain = (c.heap o).chain
  isTarget : ∀ o < c.next, (c'.heap o).isTarget = (c.heap o).isTarget
  kept : ∀ o < c.next, ∀ k ∈ pinned,
    c'.rawget o k = c.rawget o k ∨ k ∉ K ∧ c'.rawget o k = .bool true
  deps : ∀ o < c.next, c'.deps o ⊆ c.deps o
  hasDeps : ∀ o < c.next, c.rawget o "deps" ≠ .nil → c'.rawget o "deps" ≠ .nil
  newer : ∀ o < c.next, c.NewerOk o → c'.NewerOk o
  later : ∀ o, c.next ≤ o → o < c'.next → c'.Blank K o
  beyond : ∀ o, c'.next ≤ o → c'.heap o = c.heap o

/-- What reading and everything else that is no business of the jobs keeps as well. -/
structure Idles (K : Finset String) (c c' : Core) : Prop extends Stays K c c' where
  running : c'.running = c.running
  count : c'.count = c.count
  pos : c'.pos = c.pos
  status : ∀ o < c.next, c'.rawget o "status" = c.rawget o "status"
  unstarted : ∀ o, c.next ≤ o → o < c'.next → c'.rawget o "status" = .nil

variable {K : Finset String} {c c' c'' : Core}

theorem Blank.stays {o : ObjId} (h : c.Blank K o) (hs : c.Stays K c') (ho : o < c.next) :
    c'.Blank K o where
  chain := (hs.chain o ho).trans h.chain
  isTarget := by rw [hs.isTarget o ho]; exact h.isTarget
  own k hk hne := by
    rcases hs.kept o ho k hk with he | he
    · rw [he]
      exact h.own k hk hne
    · exact .inr he
  deps := Finset.subset_empty.mp (h.deps ▸ hs.deps o ho)
  hasDeps := hs.hasDeps o ho h.hasDeps
  newer := hs.newer o ho h.newer

theorem Stays.refl (K : Finset String) (c : Core) : c.Stays K c where
  registry := rfl
  defined := rfl
  next := le_rfl
  chain _ _ := rfl
  isTarget _ _ := rfl
  kept _ _ _ _ := .inl rfl
  deps _ _ := fun _ h => h
  hasDeps _ _ h := h
  newer _ _ h := h
  later _ h h' := absurd h' (not_lt.mpr h)
  beyond _ _ := rfl

theorem Stays.trans (h : c.Stays K c') (h' : c'.Stays K c'') : c.Stays K c'' where
  registry := h'.registry.trans h.registry
  defined := h'.defined.trans h.defined
  next := h.next.trans h'.next
  chain o ho := (h'.chain o (ho.trans_le h.next)).trans (h.chain o ho)
  isTarget o ho := (h'.isTarget o (ho.trans_le h.next)).trans (h.isTarget o ho)
  kept o ho k hk := by
    rcases h'.kept o (ho.trans_le h.next) k hk with he | he
    · rw [he]
      exact h.kept o ho k hk
    · exact .inr he
  deps o ho := fun _ hm => h.deps o ho (h'.deps o (ho.trans_le h.next) hm)
  hasDeps o ho hd := h'.hasDeps o (ho.trans_le h.next) (h.hasDeps o ho hd)
  newer o ho hn := h'.newer o (ho.trans_le h.next) (h.newer o ho hn)
  later o ho ho' := by
    by_cases hlt : o < c'.next
    · exact (h.later o ho hlt).stays h' hlt
    · exact h'.later o (not_lt.mp hlt) ho'
  beyond o ho := (h'.beyond o ho).trans (h.beyond o (h'.next.trans ho))

theorem Idles.refl (K : Finset String) (c : Core) : c.Idles K c where
  toStays := .refl K c
  running := rfl
  count := rfl
  pos := rfl
  status _ _ := rfl
  unstarted _ h h' := absurd h' (not_lt.mpr h)

theorem Idles.trans (h : c.Idles K c') (h' : c'.Idles K c'') : c.Idles K c'' where
  toStays := h.toStays.trans h'.toStays
  running := h'.running.trans h.running
  count := h'.count.trans h.count
  pos := h'.pos.trans h.pos
  status o ho := (h'.status o (ho.trans_le h.next)).trans (h.status o ho)
  unstarted o ho ho' := by
    by_cases hlt : o < c'.next
    · rw [h'.status o hlt]
      exact h.unstarted o ho hlt
    · exact h'.unstarted o (not_lt.mp hlt) ho'

instance : IsPreorder Core (Stays K) where
  refl := .refl K
  trans _ _ _ := .trans

instance : IsPreorder Core (Idles K) where
  refl := .refl K
  trans _ _ _ := .trans

theorem Stays.linked (h : c.Stays K c') (hc : c.Linked) : c'.Linked := by
  intro o ho p ps hp
  by_cases hlt : o < c.next
  · rw [h.chain o hlt] at hp
    obtain ⟨hpn,hps,ht⟩ := hc o hlt p ps hp
    exact ⟨hpn.trans_le h.next,by rw [h.chain p hpn,hps],by rw [h.isTarget p hpn,h.isTarget o hlt,ht]⟩
  · rw [(h.later o (not_lt.mp hlt) ho).chain] at hp
    cases hp

theorem stays_rawset {o : ObjId} (ho : o < c.next) {key : String} {v : Value}
    (hkept : key ∈ pinned → key ∉ K ∧ v = .bool true)
    (hdeps : key = "deps" → v ≠ .nil ∧ ∀ s, v = .names s → s ⊆ c.deps o)
    (hnewer : key = "deps_newer" → v ≠ .proxy ∧ ∀ d, v ≠ .obj d) : c.Stays K (c.rawset o key v) where
  registry := rfl
  defined := rfl
  next := le_rfl
  chain _ _ := chain_rawset ..
  isTarget _ _ := isTarget_rawset ..
  kept p _ k hk := by
    rw [rawget_rawset]
    split_ifs with h
    · obtain ⟨_,rfl⟩ := h
      exact .inr (hkept hk)
    · exact .inl rfl
  deps p _ := by
    unfold Core.deps
    rw [rawget_rawset]
    split_ifs with h
    · obtain ⟨rfl,hk⟩ := h
      obtain ⟨_,hs⟩ := hdeps hk.symm
      cases v with
      | names s => exact hs s rfl
      | _ => exact Finset.empty_subset _
    · exact fun _ hm => hm
  hasDeps p _ hp := by
    rw [rawget_rawset]
    split_ifs with h
    · exact (hdeps h.2.symm).1
    · exact hp
  newer p _ hp := by
    unfold NewerOk at hp ⊢
    rw [rawget_rawset]
    split_ifs with h
    · exact hnewer h.2.symm
    · exact hp
  later p h h' := absurd h' (not_lt.mpr h)
  beyond p hp := heap_rawset_of_ne c (ho.trans_le hp).ne' key v

theorem idles_rawset {o : ObjId} (ho : o < c.next) {key : String} {v : Value} (hs : key ≠ "status")
    (hkept : key ∈ pinned → key ∉ K ∧ v = .bool true)
    (hdeps : key = "deps" → v ≠ .nil ∧ ∀ s, v = .names s → s ⊆ c.deps o)
    (hnewer : key = "deps_newer" → v ≠ .proxy ∧ ∀ d, v ≠ .obj d) : c.Idles K (c.rawset o key v) where
  toStays := stays_rawset ho hkept hdeps hnewer
  running := rfl
  count := rfl
  pos := rfl
  status p _ := by rw [rawget_rawset,if_neg (by simp [hs.symm])]
  unstarted p h h' := absurd h' (not_lt.mpr h)

theorem idles_rawset_newer {o : ObjId} (ho : o < c.next) (l : Finset String) :
    c.Idles K (c.rawset o "deps_newer" (.names l)) := by
  apply idles_rawset ho (by decide)
  · exact fun h => absurd h (by decide)
  · exact fun h => absurd h (by decide)
  · exact fun _ => ⟨by simp,by simp⟩

/-- Dependencies are removed. -/
theorem idles_rawset_deps {o : ObjId} (ho : o < c.next) {s : Finset String} (hs : s ⊆ c.deps o) :
    c.Idles K (c.rawset o "deps" (.names s)) := by
  apply idles_rawset ho (by decide)
  · exact fun h => absurd h (by decide)
  · refine fun _ => ⟨by simp,?_⟩
    rintro _ ⟨rfl⟩
    exact hs
  · exact fun h => absurd h (by decide)

/-- Writing one of the fields of the engine that hold neither dependencies nor a status. -/
theorem idles_rawset_of_mem {o : ObjId} (ho : o < c.next) {key : String} {v : Value}
    (hk : key ∈ ["exists","timestamp","errmsg","dep_status"]) : c.Idles K (c.rawset o key v) := by
  apply idles_rawset ho
  · rintro rfl
    exact absurd hk (by decide)
  · intro hp
    simp only [pinned,List.mem_cons,List.not_mem_nil,or_false] at hk hp
    grind
  · rintro rfl
    exact absurd hk (by decide)
  · rintro rfl
    exact absurd hk (by decide)

theorem idles_alloc (c : Core) (v : Value) :
    c.Idles K (c.alloc (c.instance none (Function.update noFields "name" v))) := by
  have hheap : ∀ o < c.next,
      (c.alloc (c.instance none (Function.update noFields "name" v))).heap o = c.heap o :=
    fun o ho => c.heap_alloc_of_lt _ ho
  have hraw : ∀ o < c.next, ∀ k,
      (c.alloc (c.instance none (Function.update noFields "name" v))).rawget o k = c.rawget o k := by
    intro o ho k
    rw [rawget,hheap o ho]
    rfl
  have hnew : ∀ o, c.next ≤ o →
      o < (c.alloc (c.instance none (Function.update noFields "name" v))).next → o = c.next :=
    fun o ho ho' => le_antisymm (Nat.le_of_lt_succ ho') ho
  refine ⟨⟨rfl,rfl,Nat.le_succ _,?_,?_,?_,?_,?_,?_,?_,?_⟩,rfl,rfl,rfl,?_,?_⟩
  · exact fun o ho => by rw [hheap o ho]
  · exact fun o ho => by rw [hheap o ho]
  · exact fun o ho k _ => .inl (hraw o ho k)
  · exact fun o ho => (deps_congr (hraw o ho _)).subset
  · exact fun o ho h => by rwa [hraw o ho]
  · intro o ho h
    unfold NewerOk
    rwa [hraw o ho]
  · intro o ho ho'
    obtain rfl := hnew o ho ho'
    refine ⟨by simp [Core.instance],by simp [Core.instance],?_,?_,?_,?_⟩
    · intro k hk hne
      simp only [pinned,List.mem_cons,List.not_mem_nil,or_false] at hk
      rcases hk with rfl | rfl | rfl
      · exact absurd rfl hne
      · exact .inl (by simp [rawget,Core.instance,noFields])
      · exact .inl (by simp [rawget,Core.instance,noFields])
    · exact deps_of_rawget (by simp [rawget,Core.instance])
    · simp [rawget,Core.instance]
    · simp [NewerOk,rawget,Core.instance,noFields]
  · exact fun o ho => c.heap_alloc_of_ne _ (Nat.lt_of_succ_le ho).ne'
  · exact fun o ho => hraw o ho _
  · intro o ho ho'
    obtain rfl := hnew o ho ho'
    simp [rawget,Core.instance,noFields]

theorem stays_of_heap (hheap : c'.heap = c.heap) (hnext : c'.next = c.next)
    (hreg : c'.registry = c.registry) (hdef : c'.defined = c.defined) : c.Stays K c' := by
  have hraw : ∀ o k, c'.rawget o k = c.rawget o k := fun o k => by rw [rawget,hheap]; rfl
  refine ⟨hreg,hdef,hnext.ge,?_,?_,?_,?_,?_,?_,?_,?_⟩
  · exact fun o _ => by rw [hheap]
  · exact fun o _ => by rw [hheap]
  · exact fun o _ k _ => .inl (hraw o k)
  · exact fun o _ => (deps_congr (hraw o _)).subset
  · exact fun o _ h => by rwa [hraw]
  · intro o _ h
    unfold NewerOk
    rwa [hraw]
  · exact fun o h h' => absurd h' (not_lt.mpr (hnext.le.trans h))
  · exact fun o _ => by rw [hheap]

theorem idles_of_heap (hheap : c'.heap = c.heap) (hnext : c'.next = c.next)
    (hreg : c'.registry = c.registry) (hdef : c'.defined = c.defined)
    (hrun : c'.running = c.running) (hcount : c'.count = c.count) (hpos : c'.pos = c.pos) :
    c.Idles K c' :=
  ⟨stays_of_heap hheap hnext hreg hdef,hrun,hcount,hpos,fun o _ => by rw [rawget,hheap]; rfl,
    fun o h h' => absurd h' (not_lt.mpr (hnext.le.trans h))⟩

end Core
end Presto

import Presto.Registry.Frame

/-! The cached attributes `exists` and `timestamp` of targets that are made from classes. -/
namespace Presto
open Program

/-- An instance with a name, none of whose tables has `exists` or `timestamp` as a field. -/
structure Instance (c : Core) (x : ObjId) : Prop where
  isTarget : (c.heap x).isTarget
  named : ∃ k, c.rawget x "name" = .str k
  plain : ∀ p ∈ x::(c.heap x).chain, ∀ a ∈ ["exists","timestamp"], c.rawget p a = .nil

/-- The attributes that `__target.mt.__index` computes, with their getters. -/
def cachedAttributes : List (String × String) :=
  [("exists","get_exists"),("timestamp","get_timestamp")]

/-- The state with other files. -/
def Core.at (c : Core) (fs : FileSystem) : Core := { c with files := fs }

/-- Another instance of the same classes. -/
def Sibling (c : Core) (x y : ObjId) : Prop :=
  y ≠ x ∧ Instance c y ∧ (c.heap y).chain = (c.heap x).chain

/-- The first read of an attribute is the most derived getter applied to `x` itself, and it
changes no later read of another instance of the same classes. -/
structure ReadsOwn (E : Env) (c : Core) (x : ObjId) : Prop where
  answer : ∀ a ∈ cachedAttributes, ∀ fs, (readCached E a.1 a.2 x (c.at fs)).1 =
    getterAnswer E (c.attr x a.2) x (c.seen x) fs
  others : ∀ a ∈ cachedAttributes, ∀ y, Sibling c x y → ∀ fs fs',
    (readCached E a.1 a.2 y ((readCached E a.1 a.2 x (c.at fs)).2.at fs')).1 =
      (readCached E a.1 a.2 y (c.at fs')).1

/-- What the getter of the class at the root answers for that class. -/
def rootAnswer (E : Env) (c : Core) (x : ObjId) (getter : String) (fs : FileSystem) :
    Outcome Value Value :=
  getterAnswer E (c.attr (c.base x) getter) (c.base x) (c.seen (c.base x)) fs

/-- The class at the root answers as the instance would, and a value that is shared with
another instance does not depend on the files. -/
def RootAgrees (E : Env) (c : Core) (x : ObjId) (getter : String) : Prop :=
  (∀ fs, rootAnswer E c x getter fs = getterAnswer E (c.attr x getter) x (c.seen x) fs) ∧
    ((∃ y, Sibling c x y) → ∀ fs v, v ≠ .nil → rootAnswer E c x getter fs = .ret v →
      ∀ fs', rootAnswer E c x getter fs' = .ret v)

section
variable {E : Env} {c : Core} {x y : ObjId}

theorem rawset_self {o : ObjId} {key : String} {v : Value} (h : c.rawget o key = v) :
    c.rawset o key v = c := by
  have hset : (c.heap o).set key v = c.heap o := by
    unfold Obj.set
    rw [← h]
    exact congrArg (fun raw => { c.heap o with raw := raw }) (Function.update_eq_self key (c.heap o).raw)
  unfold Core.rawset
  rw [hset,Function.update_eq_self]

theorem base_of_nil (h : (c.heap x).chain = []) : c.base x = x := by
  simp [Core.base,h]

theorem base_mem_chain (h : (c.heap x).chain ≠ []) : c.base x ∈ (c.heap x).chain := by
  unfold Core.base
  rw [List.getLast?_eq_some_getLast h]
  exact List.getLast_mem h

theorem Sibling.base_eq (h : Sibling c x y) (hx : (c.heap x).chain ≠ []) : c.base y = c.base x := by
  unfold Core.base
  rw [h.2.2,List.getLast?_eq_some_getLast hx]
  rfl

theorem Instance.holder (h : Instance c x) {key : String} (hk : key ∈ ["exists","timestamp"]) :
    c.holder x key = none := by
  apply List.find?_eq_none.mpr
  intro p hp
  simp [h.plain p hp key hk]

theorem key_mem {a : String × String} (ha : a ∈ cachedAttributes) : a.1 ∈ ["exists","timestamp"] := by
  rcases List.mem_pair.mp ha with rfl | rfl <;> decide

/-- A first read asks the getter of the class at the root about that class. -/
theorem Instance.answer (h : Instance c x) {key : String} (hk : key ∈ ["exists","timestamp"])
    (getter : String) (fs : FileSystem) :
    (readCached E key getter x (c.at fs)).1 = rootAnswer E c x getter fs := by
  rw [readCached_answer E (c.at fs) x key getter h.isTarget]
  have hh : (c.at fs).holder x key = none := h.holder hk
  rw [hh]
  exact callGetter_answer E (c.at fs) (c.base x) getter

/-- The value is stored in the class at the root. -/
theorem Instance.state (h : Instance c x) {key : String} (hk : key ∈ ["exists","timestamp"])
    (getter : String) (fs : FileSystem) :
    (∃ v, rootAnswer E c x getter fs = .ret v ∧
      (readCached E key getter x (c.at fs)).2 = (c.at fs).rawset (c.base x) key v) ∨
    (∀ v, rootAnswer E c x getter fs ≠ .ret v) ∧
      (readCached E key getter x (c.at fs)).2 = c.at fs := by
  have hwp : wp (readCached E key getter x) (fun _ c' =>
      (∃ v, rootAnswer E c x getter fs = .ret v ∧ c' = (c.at fs).rawset (c.base x) key v) ∨
      (∀ v, rootAnswer E c x getter fs ≠ .ret v) ∧ c' = c.at fs) (c.at fs) := by
    unfold readCached
    rw [wp_bind_gets,show (id (c.at fs)).holder x key = none from h.holder hk]
    dsimp only
    rw [wp_ite]
    split_ifs with ht
    swap
    · exact absurd h.isTarget ht
    rw [wp_bind]
    have hanswer : (callGetter E (c.base x) getter (c.at fs)).1 = rootAnswer E c x getter fs :=
      callGetter_answer E (c.at fs) (c.base x) getter
    have hstate := callGetter_state E (c.at fs) (c.base x) getter
    change seqPost _ _ (callGetter E (c.base x) getter (c.at fs)).1
      (callGetter E (c.base x) getter (c.at fs)).2
    rw [hstate,hanswer]
    cases hr : rootAnswer E c x getter fs with
    | ret v => exact .inl ⟨v,rfl,rfl⟩
    | raise e => exact .inr ⟨by simp,rfl⟩
    | diverge => exact .inr ⟨by simp,rfl⟩
  exact hwp

/-- What a class stores is what its instances read from then on. -/
theorem Sibling.reads_stored (h : Sibling c x y) (hx : (c.heap x).chain ≠ [])
    {key : String} (hk : key ∈ ["exists","timestamp"]) (getter : String) {v : Value} (hv : v ≠ .nil)
    (fs fs' : FileSystem) :
    (readCached E key getter y (((c.at fs).rawset (c.base x) key v).at fs')).1 = .ret v := by
  obtain ⟨_,hy,hchain⟩ := h
  have ht : ((((c.at fs).rawset (c.base x) key v).at fs').heap y).isTarget := by
    rw [← hy.isTarget]
    exact Core.isTarget_rawset (c.at fs) (c.base x) y key v
  rw [readCached_answer E _ y key getter ht]
  have hraw : ∀ p, (((c.at fs).rawset (c.base x) key v).at fs').rawget p key =
      if p = c.base x then v else c.rawget p key := by
    intro p
    refine (Core.rawget_rawset (c.at fs) (c.base x) p key key v).trans ?_
    simp only [and_true]
    rfl
  have hholder : (((c.at fs).rawset (c.base x) key v).at fs').holder y key = some (c.base x) := by
    have hlist : ((((c.at fs).rawset (c.base x) key v).at fs').heap y).chain = (c.heap y).chain :=
      Core.chain_rawset (c.at fs) (c.base x) y key v
    unfold Core.holder
    rw [hlist]
    have hmem : c.base x ∈ y::(c.heap y).chain := by
      rw [hchain]
      exact List.mem_cons_of_mem _ (base_mem_chain hx)
    cases hfind : (y::(c.heap y).chain).find? fun p =>
        (((c.at fs).rawset (c.base x) key v).at fs').rawget p key ≠ .nil with
    | none =>
      have hnone := List.find?_eq_none.mp hfind _ hmem
      rw [hraw,if_pos rfl] at hnone
      exact absurd hv (by simpa using hnone)
    | some p =>
      have hp := List.find?_some hfind
      rw [hraw] at hp
      by_cases he : p = c.base x
      · rw [he]
      · rw [if_neg he,hy.plain p (List.mem_of_find?_eq_some hfind) key hk] at hp
        simp at hp
  rw [hholder]
  simp [hraw]

/-- Nothing that is stored in `x` concerns the other direct instances of `target`. -/
theorem Sibling.reads_own (h : Sibling c x y) (hx : (c.heap x).chain = [])
    {key : String} (hk : key ∈ ["exists","timestamp"]) (getter : String) (v : Value)
    (fs fs' : FileSystem) :
    (readCached E key getter y (((c.at fs).rawset x key v).at fs')).1 =
      (readCached E key getter y (c.at fs')).1 := by
  obtain ⟨hne,hy,hchain⟩ := h
  rw [hx] at hchain
  have hheap : (((c.at fs).rawset x key v).at fs').heap y = c.heap y :=
    Function.update_of_ne hne _ _
  have hattr : ∀ k, (((c.at fs).rawset x key v).at fs').attr y k = (c.at fs').attr y k := by
    intro k
    apply Core.attr_congr
    · rw [hheap]; rfl
    · intro p hp
      rw [List.mem_cons,show ((c.at fs').heap y).chain = [] from hchain] at hp
      rw [hp.resolve_right List.not_mem_nil,Core.rawget,hheap]
      rfl
    · rw [hheap]; rfl
    · exact fun _ => rfl
  have hinst : Instance (((c.at fs).rawset x key v).at fs') y := by
    refine ⟨by rw [hheap]; exact hy.isTarget,?_,?_⟩
    · rw [Core.rawget,hheap]
      exact hy.named
    · rw [hheap,hchain]
      intro p hp a ha
      rw [List.mem_singleton.mp hp]
      change (_ : Obj).raw a = _
      rw [hheap]
      exact hy.plain y List.mem_cons_self a ha
  rw [hy.answer hk]
  refine (hinst.answer hk getter fs').trans ?_
  have hb : c.base y = y := base_of_nil hchain
  have hb' : (((c.at fs).rawset x key v).at fs').base y = y := base_of_nil (by rw [hheap]; exact hchain)
  have hseen : (((c.at fs).rawset x key v).at fs').seen y = (c.at fs').seen y := by
    funext k
    unfold Core.seen
    rw [hattr]
  unfold rootAnswer
  rw [hb,hb',hattr,hseen]
  rfl

/-- A named instance reads its own attributes exactly if there is no class between it and
`target`, or if the class at the root happens to answer for it. -/
theorem readsOwn_iff (E : Env) (c : Core) (x : ObjId) (h : Instance c x) :
    ReadsOwn E c x ↔
      (c.heap x).chain = [] ∨ ∀ a ∈ cachedAttributes, RootAgrees E c x a.2 := by
  constructor
  · intro hown
    by_cases hx : (c.heap x).chain = []
    · exact .inl hx
    refine .inr fun a ha => ⟨fun fs => ?_,?_⟩
    · rw [← h.answer (key_mem ha)]
      exact hown.answer a ha fs
    · rintro ⟨y,hy⟩ fs v hv hr fs'
      have hsame := hown.others a ha y hy fs fs'
      rcases h.state (E := E) (key_mem ha) a.2 fs with ⟨w,hw,hs⟩ | ⟨hno,_⟩
      · rw [hr] at hw
        cases hw
        rw [hs,hy.reads_stored hx (key_mem ha) a.2 hv,hy.2.1.answer (key_mem ha)] at hsame
        rw [hsame]
        unfold rootAnswer
        rw [hy.base_eq hx]
      · exact absurd hr (hno v)
  · intro hcond
    constructor
    · intro a ha fs
      rw [h.answer (key_mem ha)]
      rcases hcond with hx | hx
      · rw [rootAnswer,base_of_nil hx]
      · exact (hx a ha).1 fs
    · intro a ha y hy fs fs'
      rcases h.state (E := E) (key_mem ha) a.2 fs with ⟨v,hv,hs⟩ | ⟨_,hs⟩
      · rw [hs]
        rcases hcond with hx | hx
        · rw [base_of_nil hx]
          exact hy.reads_own hx (key_mem ha) a.2 v fs fs'
        · by_cases hchain : (c.heap x).chain = []
          · rw [base_of_nil hchain]
            exact hy.reads_own hchain (key_mem ha) a.2 v fs fs'
          by_cases hnil : v = .nil
          · have hraw : (c.at fs).rawget (c.base x) a.1 = v :=
              (h.plain _ (List.mem_cons_of_mem x (base_mem_chain hchain)) _ (key_mem ha)).trans hnil.symm
            rw [rawset_self hraw]
            rfl
          · rw [hy.reads_stored hchain (key_mem ha) a.2 hnil,hy.2.1.answer (key_mem ha),rootAnswer,
              hy.base_eq hchain]
            exact ((hx a ha).2 ⟨y,hy⟩ fs v hnil hv fs').symm
      · rw [hs]
        rfl

/-- A class whose getters are functions of the makefile, and an instance of it with the name `x`. -/
def Core.withGetters : Core :=
  (newNamed (some 3) "x" noFields (newTarget none (Function.update (Function.update noFields
    "get_exists" (.fn (.user 0))) "get_timestamp" (.fn (.user 1))) (Core.init fun _ => .absent)).2).2

/-- Functions of makefiles that answer without looking at the disk. -/
def Env.constant : Env :=
  { Env.plain with call := fun f _ _ _ => .ok (if f = .user 0 then .bool true else .num 7) }

theorem readsOwn_x : ReadsOwn Env.constant Core.withGetters 4 := by
  have hanswer : ∀ a ∈ cachedAttributes, ∃ v, (∀ fs, rootAnswer Env.constant Core.withGetters 4 a.2 fs = .ret v) ∧
      ∀ fs, getterAnswer Env.constant (Core.withGetters.attr 4 a.2) 4 (Core.withGetters.seen 4) fs = .ret v := by
    intro a ha
    rcases List.mem_pair.mp ha with rfl | rfl
    · exact ⟨.bool true,fun _ => rfl,fun _ => rfl⟩
    · exact ⟨.num 7,fun _ => rfl,fun _ => rfl⟩
  refine (readsOwn_iff Env.constant Core.withGetters 4
    ⟨by decide +kernel,⟨"x",by decide +kernel⟩,by decide +kernel⟩).mpr (.inr fun a ha => ?_)
  obtain ⟨v,hroot,hown⟩ := hanswer a ha
  refine ⟨fun fs => (hroot fs).trans (hown fs).symm,fun _ fs u _ hu fs' => ?_⟩
  rw [← hu,hroot,hroot]

/-- A class, and an instance of it with the name `x`. -/
def Core.withDerived : Core :=
  (newNamed (some 3) "x" noFields (newTarget none noFields (Core.init fun _ => .absent)).2).2

theorem derived_reads_class :
    Instance Core.withDerived 4 ∧ ¬ReadsOwn Env.plain Core.withDerived 4 := by
  refine ⟨⟨by decide +kernel,⟨"x",by decide +kernel⟩,by decide +kernel⟩,?_⟩
  intro hown
  have hanswer := hown.answer ("exists","get_exists") (by decide) fun _ => .file 0
  have hread : (readCached Env.plain "exists" "get_exists" 4
      (Core.withDerived.at fun _ => .file 0)).1 = .ret (.bool false) := by decide +kernel
  have hspec : getterAnswer Env.plain (Core.withDerived.attr 4 "get_exists") 4
      (Core.withDerived.seen 4) (fun _ => .file 0) = .ret (.bool true) := by decide +kernel
  rw [hread,hspec] at hanswer
  cases hanswer

end
end Presto

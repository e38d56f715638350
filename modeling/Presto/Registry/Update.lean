import Presto.Target

/-! What an allocation and a registration change in the tables of a process, and the only
ways in which `target[key]` can be read and written. -/
namespace Presto
open Program

/-- The chain of an allocated table starts with an allocated class and goes on with its chain;
what derives from a target is a target. -/
def Core.Linked (c : Core) : Prop :=
  ∀ o < c.next, ∀ p ps, (c.heap o).chain = p::ps →
    p < c.next ∧ (c.heap p).chain = ps ∧ (c.heap p).isTarget = (c.heap o).isTarget

namespace Core
variable (c : Core)

theorem heap_alloc_of_ne (x : Obj) {o : ObjId} (h : o ≠ c.next) : (c.alloc x).heap o = c.heap o :=
  Function.update_of_ne h _ _

theorem heap_alloc_of_lt (x : Obj) {o : ObjId} (h : o < c.next) : (c.alloc x).heap o = c.heap o :=
  c.heap_alloc_of_ne x h.ne

theorem heap_rawset_of_ne {o p : ObjId} (h : p ≠ o) (key : String) (v : Value) :
    (c.rawset o key v).heap p = c.heap p := Function.update_of_ne h _ _

@[simp] theorem heap_alloc_next (x : Obj) : (c.alloc x).heap c.next = x := by simp [alloc]
@[simp] theorem next_alloc (x : Obj) : (c.alloc x).next = c.next+1 := rfl
@[simp] theorem registry_alloc (x : Obj) : (c.alloc x).registry = c.registry := rfl
@[simp] theorem defined_alloc (x : Obj) : (c.alloc x).defined = c.defined := rfl
@[simp] theorem files_alloc (x : Obj) : (c.alloc x).files = c.files := rfl
@[simp] theorem next_rawset (o : ObjId) (key : String) (v : Value) :
    (c.rawset o key v).next = c.next := rfl
@[simp] theorem registry_rawset (o : ObjId) (key : String) (v : Value) :
    (c.rawset o key v).registry = c.registry := rfl
@[simp] theorem defined_rawset (o : ObjId) (key : String) (v : Value) :
    (c.rawset o key v).defined = c.defined := rfl
@[simp] theorem files_rawset (o : ObjId) (key : String) (v : Value) :
    (c.rawset o key v).files = c.files := rfl

@[simp] theorem next_register (key : String) (o : ObjId) : (c.register key o).next = c.next := rfl
@[simp] theorem defined_register (key : String) (o : ObjId) :
    (c.register key o).defined = c.defined := rfl
@[simp] theorem files_register (key : String) (o : ObjId) :
    (c.register key o).files = c.files := rfl
theorem heap_register (key : String) (o : ObjId) :
    (c.register key o).heap = (c.rawset o "name" (.str key)).heap := rfl

@[simp] theorem registry_register_self (key : String) (o : ObjId) :
    (c.register key o).registry key = .obj o := by simp [register]

theorem registry_register_of_ne {key j : String} (o : ObjId) (hj : j ≠ key)
    (hd : j ≠ "__default") : (c.register key o).registry j = c.registry j := by
  unfold register
  simp only [Function.update_of_ne hj]
  split_ifs
  · exact Function.update_of_ne hd _ _
  · rfl

/-- The default goal is set once. -/
theorem registry_register_default (key : String) (o : ObjId) (h : c.registry "__default" ≠ .nil)
    (hk : key ≠ "__default") : (c.register key o).registry "__default" = c.registry "__default" := by
  simp [register,Function.update_of_ne hk.symm,h]

@[simp] theorem rawget_register (key : String) (o p : ObjId) (j : String) :
    (c.register key o).rawget p j =
      if p = o ∧ j = "name" then .str key else c.rawget p j := by
  change (c.rawset o "name" (.str key)).rawget p j = _
  rw [rawget_rawset]

@[simp] theorem chain_register (key : String) (o p : ObjId) :
    ((c.register key o).heap p).chain = (c.heap p).chain := by
  rw [heap_register,chain_rawset]

@[simp] theorem isTarget_register (key : String) (o p : ObjId) :
    ((c.register key o).heap p).isTarget = (c.heap p).isTarget := by
  rw [heap_register,isTarget_rawset]

theorem Linked.lt_next {c : Core} (h : c.Linked) {o p : ObjId} (ho : o < c.next)
    (hp : p ∈ o::(c.heap o).chain) : p < c.next := by
  rcases List.mem_cons.mp hp with rfl | hp
  · exact ho
  · generalize hc : (c.heap o).chain = l at hp
    induction l generalizing o with
    | nil => cases hp
    | cons q qs ih =>
      obtain ⟨hq,hqs,_⟩ := h o ho q qs hc
      rcases List.mem_cons.mp hp with rfl | hp
      · exact hq
      · exact ih hq (List.mem_cons_of_mem _ (by rwa [hqs])) hqs hp

theorem base_mem (o : ObjId) : c.base o ∈ o::(c.heap o).chain := by
  unfold base
  cases hl : (c.heap o).chain.getLast? with
  | none => exact List.mem_cons_self
  | some p => exact List.mem_cons_of_mem _ (List.mem_of_getLast? hl)

theorem Linked.alloc {c : Core} (h : c.Linked) {x : Obj}
    (hx : ∀ p ps, x.chain = p::ps →
      p < c.next ∧ (c.heap p).chain = ps ∧ (c.heap p).isTarget = x.isTarget) :
    (c.alloc x).Linked := by
  intro o ho p ps hp
  rw [next_alloc] at ho ⊢
  have hlink : p < c.next ∧ (c.heap p).chain = ps ∧
      (c.heap p).isTarget = ((c.alloc x).heap o).isTarget := by
    rcases Nat.lt_succ_iff_lt_or_eq.mp ho with hlt | rfl
    · rw [heap_alloc_of_lt c x hlt] at hp ⊢
      exact h o hlt p ps hp
    · rw [heap_alloc_next] at hp ⊢
      exact hx p ps hp
  refine ⟨Nat.lt_succ_of_lt hlink.1,?_⟩
  rw [heap_alloc_of_lt c x hlink.1]
  exact hlink.2

theorem Linked.instance {c : Core} (h : c.Linked) (self : Option ObjId)
    (hself : ∀ p ∈ self, p < c.next) (fields : String → Value) :
    (c.alloc (c.instance self fields)).Linked := by
  apply h.alloc
  intro q qs hq
  cases self with
  | none => cases hq
  | some p =>
    obtain ⟨rfl,rfl⟩ := List.cons.inj hq
    exact ⟨hself p rfl,rfl,rfl⟩

theorem Linked.rawset {c : Core} (h : c.Linked) (o : ObjId) (key : String) (v : Value) :
    (c.rawset o key v).Linked := by
  intro p hp q qs hq
  simp only [chain_rawset,isTarget_rawset] at hq ⊢
  exact h p hp q qs hq

theorem Linked.register {c : Core} (h : c.Linked) (key : String) (o : ObjId) :
    (c.register key o).Linked := h.rawset o "name" (.str key)

end Core

/-- `target[key] = v` is answered by the raw field `defined` or by `__newindex`, which raises
without a change or registers one target. -/
theorem targetNewindex_cases (key : String) (v : Value) (c : Core) :
    (key = "defined" ∧ c.defined ≠ .nil ∧
      targetNewindex key v c = (.ret (),{ c with defined := v })) ∨
    (¬(key = "defined" ∧ c.defined ≠ .nil) ∧ ∃ msg, targetNewindex key v c = (.raise msg,c)) ∨
    (¬(key = "defined" ∧ c.defined ≠ .nil) ∧ hasBackslash key = false ∧ c.registry key = .nil ∧
      ((∃ f, v = .fn f ∧ targetNewindex key v c =
        (.ret (),(c.alloc (c.instance none (Function.update noFields "command" (.fn f)))).register
          key c.next)) ∨
      ∃ o, v = .obj o ∧ (c.heap o).isTarget ∧
        targetNewindex key v c = (.ret (),c.register key o))) := by
  by_cases hd : key = "defined" ∧ c.defined ≠ .nil
  · exact .inl ⟨hd.1,hd.2,by simp [targetNewindex,hd]⟩
  · right
    by_cases hb : hasBackslash key = true
    · exact .inl ⟨hd,_,by simp only [targetNewindex,run_bind_gets,run_ite,id,if_neg hd,if_pos hb]; rfl⟩
    · by_cases hr : c.registry key = .nil
      · have hb' : hasBackslash key = false := by simpa using hb
        cases v with
        | fn f =>
          refine .inr ⟨hd,hb',hr,.inl ⟨f,rfl,?_⟩⟩
          simp [targetNewindex,hd,hb',hr]
        | obj o =>
          by_cases ho : (c.heap o).isTarget = true
          · refine .inr ⟨hd,hb',hr,.inr ⟨o,rfl,ho,?_⟩⟩
            simp [targetNewindex,hd,hb',hr,ho]
          · refine .inl ⟨hd,.str "rvalue is not a target",?_⟩
            simp [targetNewindex,hd,hb',hr,ho,luaError]
        | _ =>
          refine .inl ⟨hd,.str "rvalue is not a target",?_⟩
          simp [targetNewindex,hd,hb',hr,luaError]
      · exact .inl ⟨hd,_,by
          simp only [targetNewindex,run_bind_gets,run_ite,id,if_neg hd,if_neg hb,ne_eq,hr,
            not_false_iff,if_true]; rfl⟩

/-- `target[key]` reads a field of the proxy or of the registry, or makes a new target that is
not registered. -/
theorem targetIndex_cases (key : String) (c : Core) :
    (key = "defined" ∧ c.defined ≠ .nil ∧ targetIndex key c = (.ret c.defined,c)) ∨
    (¬(key = "defined" ∧ c.defined ≠ .nil) ∧ hasBackslash key = true ∧
      ∃ msg, targetIndex key c = (.raise msg,c)) ∨
    (¬(key = "defined" ∧ c.defined ≠ .nil) ∧ hasBackslash key = false ∧ c.registry key ≠ .nil ∧
      targetIndex key c = (.ret (c.registry key),c)) ∨
    (¬(key = "defined" ∧ c.defined ≠ .nil) ∧ hasBackslash key = false ∧ c.registry key = .nil ∧
      targetIndex key c = (.ret (.obj c.next),
        c.alloc (c.instance none (Function.update noFields "name" (.str key))))) := by
  by_cases hd : key = "defined" ∧ c.defined ≠ .nil
  · exact .inl ⟨hd.1,hd.2,by simp [targetIndex,hd]⟩
  · right
    by_cases hb : hasBackslash key = true
    · exact .inl ⟨hd,hb,_,by simp only [targetIndex,run_bind_gets,run_ite,id,if_neg hd,if_pos hb]; rfl⟩
    · simp only [Bool.not_eq_true] at hb
      right
      by_cases hr : c.registry key = .nil
      · exact .inr ⟨hd,hb,hr,by simp [targetIndex,if_neg hd,hb,hr]⟩
      · exact .inl ⟨hd,hb,hr,by simp [targetIndex,if_neg hd,hb,hr]⟩

theorem targetIndex_backslash {key : String} {c : Core} (hd : key ≠ "defined")
    (hb : hasBackslash key = true) :
    targetIndex key c = (.raise (.str "target name should not contain backslashes"),c) := by
  simp [targetIndex,hd,hb,luaError]

end Presto

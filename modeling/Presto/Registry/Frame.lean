import Presto.Registry.Update

/-! What the registration of one target changes in the attributes of another. Reading an
attribute that no table on the chain holds ends in the registry, so a target registered under
the name of an optional attribute becomes that attribute of all targets that lack it. -/
namespace Presto
open Program

/-- `p` reads its name from `o` as soon as `o` has one. -/
def Core.ReadsName (c : Core) (o p : ObjId) : Prop :=
  (p::(c.heap p).chain).find? (fun q => q = o ∨ c.rawget q "name" ≠ .nil) = some o

instance (c : Core) (o p : ObjId) : Decidable (c.ReadsName o p) := by
  unfold Core.ReadsName
  infer_instance

/-- What `p` has as the attribute `a` when `o` is registered under `key`. -/
def Core.attrWith (c : Core) (key : String) (o p : ObjId) (a : String) : Value :=
  if a = "name" ∧ c.ReadsName o p then .str key
  else if (a = key ∨ a = "__default") ∧ c.attr p a = .nil then .obj o
  else c.attr p a

/-- What code of a makefile then reads of `p`. -/
def Core.seenWith (c : Core) (key : String) (o p : ObjId) (a : String) : Value :=
  if a ∈ ["exists","timestamp"] then .nil else c.attrWith key o p a

/-- What a getter answers for the table `self`, as a function of its value, of what it reads of
the table and of the files. -/
def getterAnswer (E : Env) (getter : Value) (self : ObjId) (seen : String → Value) (files : FileSystem) :
    Outcome Value Value :=
  match getter with
  | .fn (.method .getExists) =>
    if (seen "name").truthy then
      match seen "name" with
      | .str s => .ret (.bool (files.exists s))
      | .num i => .ret (.bool (files.exists (toString i)))
      | v => .raise (.str ("bad argument #1 to 'exists' (string expected, got " ++ v.typeName ++ ")"))
    else .ret (.bool false)
  | .fn (.method .getTimestamp) =>
    match seen "name" with
    | .str s => .ret (.num (if files.exists s then (files.time s).getD 0 else 0))
    | .num i =>
      .ret (.num (if files.exists (toString i) then (files.time (toString i)).getD 0 else 0))
    | v => .raise (.str ("bad argument #1 to 'exists' (string expected, got " ++ v.typeName ++ ")"))
  | .fn f => .ofExcept (E.call f (.obj self) seen files)
  | _ => .raise (.str "attempt to call field (not a function value)")

section Registered
variable {E : Env} {c c' : Core} {key : String} {o p b : ObjId}

/-- The state `c'` comes from `c` by registering `o` under `key`, which was free. -/
structure Registers (c c' : Core) (key : String) (o : ObjId) : Prop where
  free : c.registry key = .nil
  bound : ∀ j, c'.registry j = if (j = key ∨ j = "__default") ∧ c.registry j = .nil then .obj o else c.registry j
  files : c'.files = c.files

/-- The tables on the chain of `p` are those of `c`, but for the name of `o`. -/
structure SameTables (c c' : Core) (key : String) (o p : ObjId) : Prop where
  chain : (c'.heap p).chain = (c.heap p).chain
  isTarget : (c'.heap p).isTarget = (c.heap p).isTarget
  raw : ∀ q ∈ p::(c.heap p).chain, ∀ j, c'.rawget q j = if q = o ∧ j = "name" then .str key else c.rawget q j

theorem SameTables.holder (h : SameTables c c' key o p) {j : String} (hj : j ≠ "name" ∨ ¬c.ReadsName o p) :
    c'.holder p j = c.holder p j := by
  unfold Core.holder
  rw [h.chain]
  by_cases hname : j = "name"
  · subst hname
    have hno := hj.resolve_left (not_not.mpr rfl)
    have hne : ∀ q ∈ p::(c.heap p).chain, c'.rawget q "name" ≠ .nil ↔ q = o ∨ c.rawget q "name" ≠ .nil := by
      intro q hq
      rw [h.raw q hq]
      by_cases he : q = o <;> simp [he]
    have hall : (p::(c.heap p).chain).find? (fun q => c'.rawget q "name" ≠ .nil) =
        (p::(c.heap p).chain).find? fun q => q = o ∨ c.rawget q "name" ≠ .nil :=
      List.find?_congr fun q hq => by simp only [decide_eq_decide]; exact hne q hq
    rw [hall]
    unfold Core.ReadsName at hno
    cases hf : (p::(c.heap p).chain).find? fun q => q = o ∨ c.rawget q "name" ≠ .nil with
    | none =>
      symm
      apply List.find?_eq_none.mpr
      intro q hq
      have := List.find?_eq_none.mp hf q hq
      simp only [decide_eq_true_eq,not_or,not_not] at this ⊢
      exact this.2
    | some r =>
      symm
      obtain ⟨hr,l₁,l₂,hl,hbefore⟩ := List.find?_eq_some_iff_append.mp hf
      have hro : r ≠ o := fun he => hno (he ▸ hf)
      refine List.find?_eq_some_iff_append.mpr ⟨?_,l₁,l₂,hl,fun q hq => ?_⟩
      · simp only [decide_eq_true_eq] at hr ⊢
        exact hr.resolve_left hro
      · have := hbefore q hq
        simp only [Bool.not_eq_true',decide_eq_false_iff_not,not_or,not_not] at this ⊢
        exact this.2
  · apply List.find?_congr
    intro q hq
    rw [h.raw q hq,if_neg fun hn => hname hn.2]

/-- The attributes after the registration. -/
theorem SameTables.attr (h : SameTables c c' key o p) (hr : Registers c c' key o) (ht : (c.heap p).isTarget)
    (j : String) : c'.attr p j = c.attrWith key o p j := by
  unfold Core.attrWith
  by_cases hname : j = "name" ∧ c.ReadsName o p
  · obtain ⟨rfl,hreads⟩ := hname
    rw [if_pos ⟨rfl,hreads⟩]
    have hmem := List.mem_of_find?_eq_some hreads
    have hholder : c'.holder p "name" = some o := by
      unfold Core.holder
      rw [h.chain,← hreads]
      apply List.find?_congr
      intro q hq
      rw [h.raw q hq]
      by_cases he : q = o <;> simp [he]
    simp [Core.attr,hholder,h.raw o hmem]
  · rw [if_neg hname]
    have hholder := h.holder (j := j) (by tauto)
    cases hh : c.holder p j with
    | none =>
      have hattr : c.attr p j = c.registry j := by simp [Core.attr,hh,ht]
      simp only [Core.attr,hholder,hh,h.isTarget,ht,if_true,hr.bound]
    | some q =>
      have hq := List.mem_of_find?_eq_some hh
      have hne : c.rawget q j ≠ .nil := by simpa using List.find?_some hh
      have hattr : c.attr p j = c.rawget q j := by simp [Core.attr,hh]
      rw [if_neg (by rw [hattr]; exact fun hn => hne hn.2),hattr]
      simp only [Core.attr,hholder,hh]
      rw [h.raw q hq,if_neg]
      rintro ⟨rfl,rfl⟩
      apply hname ⟨rfl,?_⟩
      obtain ⟨_,l₁,l₂,hl,hbefore⟩ := List.find?_eq_some_iff_append.mp hh
      refine List.find?_eq_some_iff_append.mpr ⟨by simp,l₁,l₂,hl,fun r hr => ?_⟩
      have hnil : c.rawget r "name" = .nil := by simpa using hbefore r hr
      have hro : r ≠ q := fun he => hne (he ▸ hnil)
      simp [hnil,hro]

theorem SameTables.seen (h : SameTables c c' key o p) (hr : Registers c c' key o) (ht : (c.heap p).isTarget) :
    c'.seen p = c.seenWith key o p := by
  funext j
  unfold Core.seen Core.seenWith
  rw [h.attr hr ht]

theorem SameTables.base (h : SameTables c c' key o p) : c'.base p = c.base p := by
  unfold Core.base
  rw [h.chain]

theorem seen_name (c : Core) (b : ObjId) : c.seen b "name" = c.attr b "name" := rfl

theorem callGetter_answer (E : Env) (c : Core) (b : ObjId) (getter : String) :
    (callGetter E b getter c).1 = getterAnswer E (c.attr b getter) b (c.seen b) c.files := by
  unfold callGetter getterAnswer
  simp only [run_bind_gets,id]
  cases c.attr b getter with
  | fn f =>
    rcases f with (_ | _ | _ | _ | _ | _) | _ | _ | _ | _ | _
    case method.getTimestamp =>
      simp only [getTimestamp,run_bind_gets,id,seen_name]
      cases c.attr b "name" <;> simp [checkPath,luaError]
    case method.getExists =>
      simp only [getExists,run_bind_gets,run_ite,id]
      cases hn : c.attr b "name" with
      | bool x =>
        have hs : c.seen b "name" = .bool x := hn
        cases x <;> simp [hs,checkPath,luaError,Value.truthy]
      | _ =>
        have hs := (seen_name c b).trans hn
        simp [hs,checkPath,luaError,Value.truthy]
    all_goals rfl
  | _ => rfl

theorem callGetter_state (E : Env) (c : Core) (b : ObjId) (getter : String) : (callGetter E b getter c).2 = c := by
  unfold callGetter
  simp only [run_bind_gets,id]
  cases c.attr b getter with
  | fn f =>
    rcases f with (_ | _ | _ | _ | _ | _) | _ | _ | _ | _ | _
    case method.getTimestamp =>
      simp only [getTimestamp,run_bind_gets,id]
      cases c.attr b "name" <;> rfl
    case method.getExists =>
      simp only [getExists,run_bind_gets,run_ite,id]
      split_ifs
      · cases c.attr b "name" <;> rfl
      · rfl
    all_goals rfl
  | _ => rfl

/-- The answer of a cached attribute, whose getter only matters when no table holds it. -/
theorem readCached_answer (E : Env) (c : Core) (p : ObjId) (field getter : String)
    (ht : (c.heap p).isTarget) :
    (readCached E field getter p c).1 = match c.holder p field with
      | some q => .ret (c.rawget q field)
      | none => (callGetter E (c.base p) getter c).1 := by
  unfold readCached
  simp only [run_bind_gets,id]
  cases c.holder p field with
  | some q => rfl
  | none =>
    simp only [ht,if_true]
    change (Prog.bind _ _ c).1 = _
    unfold Prog.bind
    rcases callGetter E (c.base p) getter c with ⟨_ | _ | _,c'⟩ <;> rfl

end Registered

section
variable {E : Env} {c c' : Core} {key : String} {v : Value} {p : ObjId}

end

end Presto

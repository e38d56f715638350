import Presto.Registry.Declared
import Presto.Program.Digraph

/-! The graph of registered names stays acyclic, and the check of `depends_on` is exact: it
raises when the new dependency reaches the target, and at no other time. -/
namespace Presto
open Program

/-- A name that makefiles can give to a target. `__default` is the slot of the default goal. -/
def Nameable (k : String) : Prop :=
  hasBackslash k = false ∧ k ≠ "defined" ∧ k ≠ "__default" ∧ protectedMember k = .nil

namespace Core

/-- `m` is a dependency of the target that is registered under `n`. -/
def Edge (c : Core) (n m : String) : Prop :=
  n ≠ "__default" ∧ ∃ o, c.registry n = .obj o ∧ m ∈ c.deps o

/-- Zero or more dependency edges lead from `n` to `m`. -/
def Reaches (c : Core) : String → String → Prop := Relation.ReflTransGen c.Edge

/-- What the declarations keep for the check to be exact. -/
structure Checked (c : Core) (log : List (String × ObjId)) : Prop where
  represents : c.Represents log
  methods : ∀ m ∈ declMethods, c.Lacks m
  acyclic : Acyclic c.Edge
  nameable : ∀ n m, c.Edge n m → Nameable m

/-- The target `o` is what a lookup of `k` gives. -/
structure StandsFor (c : Core) (k : String) (o : ObjId) : Prop where
  target : (c.heap o).isTarget
  name : c.rawget o "name" = .str k
  node : c.registry k = .obj o ∨ c.registry k = .nil ∧ c.deps o = ∅

variable {c c' : Core} {log : List (String × ObjId)}

theorem Represents.mem_of_registry (h : c.Represents log) {k : String} (hd : k ≠ "__default")
    (hp : protectedMember k = .nil) (hk : c.registry k ≠ .nil) : k ∈ log.map Prod.fst := by
  by_contra hin
  exact hk (h.rest k hp hd hin)

theorem Represents.standsFor (h : c.Represents log) {k : String} (hd : k ≠ "__default")
    (hp : protectedMember k = .nil) (hk : c.registry k ≠ .nil) : ∃ o, c.StandsFor k o ∧
      c.registry k = .obj o := by
  obtain ⟨e,he,rfl⟩ := List.mem_map.mp (h.mem_of_registry hd hp hk)
  obtain ⟨ht,hn⟩ := h.named e he
  exact ⟨e.2,⟨ht,hn,.inl (h.bound e he)⟩,h.bound e he⟩

theorem Represents.registered_name (h : c.Represents log) {k : String} {o : ObjId}
    (hd : k ≠ "__default") (hk : c.registry k = .obj o) (ht : (c.heap o).isTarget) :
    c.rawget o "name" = .str k := by
  have hp : protectedMember k = .nil := by
    by_contra hp
    rw [protectedMember_table ((h.sound.member k hp).symm.trans hk),h.sound.mt] at ht
    cases ht
  obtain ⟨p,hs,hp⟩ := h.standsFor hd hp (by simp [hk])
  rw [hk] at hp
  cases hp
  exact hs.name

/-- The source of an edge is a registered name. -/
theorem Represents.mem_of_edge (h : c.Represents log) {n m : String} (he : c.Edge n m) :
    n ∈ (log.map Prod.fst).toFinset := by
  obtain ⟨hd,o,ho,hm⟩ := he
  rw [List.mem_toFinset]
  refine h.mem_of_registry hd ?_ (by simp [ho])
  by_contra hp
  obtain rfl := protectedMember_table ((h.sound.member n hp).symm.trans ho)
  simp [deps,rawget,h.sound.mt,noFields] at hm

theorem edge_congr (hreg : c'.registry = c.registry)
    (hdeps : ∀ n o, c.registry n = .obj o → c'.deps o = c.deps o) : c'.Edge = c.Edge := by
  funext n m
  unfold Edge
  rw [hreg]
  apply propext
  constructor
  · rintro ⟨hd,o,ho,hm⟩
    exact ⟨hd,o,ho,hdeps n o ho ▸ hm⟩
  · rintro ⟨hd,o,ho,hm⟩
    exact ⟨hd,o,ho,(hdeps n o ho).symm ▸ hm⟩

theorem Quiet.edge (h : c.Quiet c') (hc : c.Sound) : c'.Edge = c.Edge :=
  edge_congr h.registry fun _ _ ho => h.deps (hc.registered ho)

theorem Checked.quiet (h : c.Checked log) (hq : c.Quiet c') : c'.Checked log where
  represents := h.represents.steady hq.steady
  methods m hm := hq.steady.keepsMethods m hm (h.methods m hm)
  acyclic := by
    rw [hq.edge h.represents.sound]
    exact h.acyclic
  nameable := by
    rw [hq.edge h.represents.sound]
    exact h.nameable

end Core

/-- The error of `check_for_cycle`. -/
def cycleError (t d : String) : Value :=
  .str ("Cyclical dependency on target '" ++ t ++ "' . '" ++ d ++ "' . '" ++ t ++ "'.")

section
variable {E : Env} {c : Core} {log : List (String × ObjId)}

/-- A lookup of a name that makefiles can give. -/
theorem standsFor_targetIndex (h : c.Checked log) {k : String} (hk : Nameable k) :
    ∃ o c', targetIndex k c = (.ret (.obj o),c') ∧ c.Quiet c' ∧ c'.StandsFor k o := by
  obtain ⟨hb,hd,hdef,hp⟩ := hk
  have hq := quiet_targetIndex k c
  rcases targetIndex_cases k c with ⟨hx,_⟩ | ⟨_,hx,_⟩ | ⟨_,_,hr,hx⟩ | ⟨_,_,hr,hx⟩
  · exact absurd hx hd
  · rw [hb] at hx
    cases hx
  · rw [hx] at hq
    obtain ⟨o,hs,ho⟩ := h.represents.standsFor hdef hp hr
    exact ⟨o,c,by rw [hx,ho],hq,hs⟩
  · rw [hx] at hq
    refine ⟨c.next,_,hx,hq,by simp [Core.instance],by simp [Core.rawget,Core.instance],.inr ⟨hr,?_⟩⟩
    exact Core.deps_of_rawget (by simp [Core.rawget,Core.instance])

/-- How the check ends that starts at a node `k`: `n` is the room on the stack. -/
def CheckEnds (c : Core) (log : List (String × ObjId)) (n : ℕ) (k t d : String)
    (o : Outcome Value Unit) : Prop :=
  (o = .raise (cycleError t d) ∧ c.Reaches k t) ∨ (o = .ret () ∧ ¬c.Reaches k t) ∨
    (n ≤ height c.Edge (log.map Prod.fst).toFinset k ∧ ∃ e, o = .raise e)

theorem Core.Checked.reaches_quiet (h : c.Checked log) {c' : Core} (hq : c.Quiet c') :
    c'.Reaches = c.Reaches := by
  unfold Core.Reaches
  rw [hq.edge h.represents.sound]

theorem CheckEnds.of_quiet (h : c.Checked log) {c' : Core} (hq : c.Quiet c') {n : ℕ} {k t d : String}
    {o : Outcome Value Unit} (ho : CheckEnds c' log n k t d o) : CheckEnds c log n k t d o := by
  unfold CheckEnds at ho ⊢
  rwa [h.reaches_quiet hq,hq.edge h.represents.sound] at ho

/-- The edges at a node go to the dependencies of the table that stands for it. -/
theorem Core.StandsFor.edge {k : String} {self : ObjId} (hs : c.StandsFor k self) (hk : Nameable k)
    {y : String} (hy : y ∈ c.deps self) : c.Edge k y := by
  rcases hs.node with hr | ⟨_,hr⟩
  · exact ⟨hk.2.2.1,self,hr,hy⟩
  · rw [hr] at hy
    cases hy

/-- What is reached from a node is reached from one of its dependencies. -/
theorem Core.StandsFor.reaches_iff {k t : String} {self : ObjId} (hs : c.StandsFor k self) (hk : Nameable k)
    (hkt : k ≠ t) : c.Reaches k t ↔ ∃ y ∈ c.deps self, c.Reaches y t := by
  constructor
  · intro hr
    obtain rfl | ⟨y,⟨_,o,ho,hy⟩,hr⟩ := Relation.ReflTransGen.cases_head hr
    · exact absurd rfl hkt
    · rcases hs.node with hn | ⟨hn,_⟩ <;> rw [hn] at ho
      · cases ho
        exact ⟨y,hy,hr⟩
      · cases ho
  · rintro ⟨y,hy,hr⟩
    exact hr.head (hs.edge hk hy)

/-- A dependency is looked up, and the check goes on from there. -/
theorem checkPass_ends (h : c.Checked log) {n : ℕ} {t d : String}
    (ih : ∀ {c}, c.Checked log → ∀ {k self}, c.StandsFor k self → Nameable k →
      wp (checkForCycle E n self t d) (fun o c' => c.Quiet c' ∧ CheckEnds c log n k t d o) c)
    {c₁ : Core} (hq : c.Quiet c₁) {y : String} (hy : Nameable y) :
    wp (do
      let v ← targetIndex y
      let dep ← asTable v
      callMethod E .checkForCycle "check_for_cycle" dep (checkForCycle E n dep t d) fun _ => ()
      pure (.next ()) : Lua (Step Unit Empty)) (fun o c' => c.Quiet c' ∧
        (o = .ret (.next ()) ∧ ¬c.Reaches y t ∨ o = .raise (cycleError t d) ∧ c.Reaches y t ∨
          n ≤ height c.Edge (log.map Prod.fst).toFinset y ∧ ∃ e, o = .raise e)) c₁ := by
  obtain ⟨dep,c₂,hrun,hq₂,hsf⟩ := standsFor_targetIndex (h.quiet hq) hy
  have hq₂ := trans_of Core.Quiet hq hq₂
  have h₂ := h.quiet hq₂
  have hmethod : c₂.attr dep "check_for_cycle" = .fn (.method .checkForCycle) :=
    h₂.represents.sound.attr_method hsf.target (h₂.methods _ (by decide)) (by decide)
  have hcall : wp (callMethod E .checkForCycle "check_for_cycle" dep (checkForCycle E n dep t d) fun _ => ())
      (fun o c' => c.Quiet c' ∧ CheckEnds c log n y t d o) c₂ := by
    rw [wp,callMethod_of_method E hmethod]
    obtain ⟨hq₃,hends⟩ := ih h₂ hsf hy
    exact ⟨trans_of Core.Quiet hq₂ hq₃,hends.of_quiet h hq₂⟩
  apply wp_bind_ret hrun
  apply wp_bind_ret (m := asTable (.obj dep)) rfl
  apply wp_bind_of hcall
  · rintro _ c₃ ⟨hq₃,⟨ho,_⟩ | ⟨_,hr⟩ | ⟨_,_,ho⟩⟩
    · cases ho
    · exact ⟨hq₃,.inl ⟨rfl,hr⟩⟩
    · cases ho
  · rintro e c₃ ⟨hq₃,⟨ho,hr⟩ | ⟨ho,_⟩ | ⟨hn,_⟩⟩
    · cases ho
      exact ⟨hq₃,.inr (.inl ⟨rfl,hr⟩)⟩
    · cases ho
    · exact ⟨hq₃,.inr (.inr ⟨hn,e,rfl⟩)⟩
  · rintro c₃ ⟨_,⟨ho,_⟩ | ⟨ho,_⟩ | ⟨_,_,ho⟩⟩ <;> cases ho

/-- The check walks everything that its node reaches. -/
theorem checkForCycle_ends (h : c.Checked log) (n : ℕ) {k : String} {self : ObjId}
    (hs : c.StandsFor k self) (hk : Nameable k) (t d : String) :
    wp (checkForCycle E n self t d) (fun o c' => c.Quiet c' ∧ CheckEnds c log n k t d o) c := by
  induction n generalizing c k self with
  | zero => exact ⟨refl_of Core.Quiet c,.inr (.inr ⟨Nat.zero_le _,_,rfl⟩)⟩
  | succ n ih =>
    have hname : c.attr self "name" = .str k := by
      rw [Core.attr_eq_rawget (by simp [hs.name]),hs.name]
    have hdeps := readDeps_target h.represents.sound hs.target
    unfold checkForCycle
    rw [wp_bind_gets,wp_ite]
    split_ifs with ht
    · obtain rfl : k = t := by simpa [hname] using ht
      exact ⟨refl_of Core.Quiet c,.inl ⟨rfl,.refl⟩⟩
    · apply wp_bind_ret hdeps
      apply wp_bind_ret (run_enumerate E (c.deps self) c)
      have hkt : k ≠ t := by
        rintro rfl
        exact ht hname
      have hiff := hs.reaches_iff hk hkt
      apply wp_bind_of (R := fun o c' => c.Quiet c' ∧ ((∃ x, o = .ret x) ∧ ¬c.Reaches k t ∨
        o = .raise (cycleError t d) ∧ c.Reaches k t ∨
          n+1 ≤ height c.Edge (log.map Prod.fst).toFinset k ∧ ∃ e, o = .raise e))
      apply wp_forEach fun xs _ c₁ => c.Quiet c₁ ∧ ∃ done,
        done++xs = E.names.order c.tick (c.deps self) ∧ ∀ y ∈ done, ¬c.Reaches y t
      · rintro y xs _ c₁ ⟨hq,done,hdone,hnot⟩
        have hy : y ∈ c.deps self := by
          rw [← E.names.mem_order c.tick,← hdone]
          exact List.mem_append_right done List.mem_cons_self
        have hedge : c.Edge k y := hs.edge hk hy
        apply wp_mono (checkPass_ends h ih hq (h.nameable k y hedge))
        rintro _ c₂ ⟨hq₂,⟨rfl,hr⟩ | ⟨rfl,hr⟩ | ⟨hn,e,rfl⟩⟩
        · refine ⟨hq₂,done++[y],by simp [hdone],fun z hz => ?_⟩
          rcases List.mem_append.mp hz with hz | hz
          · exact hnot z hz
          · exact List.mem_singleton.mp hz ▸ hr
        · exact ⟨hq₂,.inr (.inl ⟨rfl,hiff.mpr ⟨y,hy,hr⟩⟩)⟩
        · refine ⟨hq₂,.inr (.inr ⟨?_,e,rfl⟩)⟩
          exact hn.trans_lt (h.acyclic.height_lt (h.represents.mem_of_edge hedge) hedge)
      · rintro _ c₁ ⟨hq,done,hdone,hnot⟩
        refine ⟨hq,.inl ⟨⟨_,rfl⟩,fun hr => ?_⟩⟩
        obtain ⟨y,hy,hr⟩ := hiff.mp hr
        rw [← E.names.mem_order c.tick,← hdone,List.append_nil] at hy
        exact hnot y hy hr
      · exact ⟨c.quiet_tick,[],rfl,by simp⟩
      · rintro x c' ⟨hq,⟨_,hnot⟩ | ⟨ho,_⟩ | ⟨_,_,ho⟩⟩
        · exact ⟨hq,.inr (.inl ⟨rfl,hnot⟩)⟩
        · cases ho
        · cases ho
      · rintro e c' ⟨hq,⟨⟨_,ho⟩,_⟩ | ⟨ho,hr⟩ | ⟨hn,_⟩⟩
        · cases ho
        · cases ho
          exact ⟨hq,.inl ⟨rfl,hr⟩⟩
        · exact ⟨hq,.inr (.inr ⟨hn,e,rfl⟩)⟩
      · rintro c' ⟨_,⟨⟨_,ho⟩,_⟩ | ⟨ho,_⟩ | ⟨_,_,ho⟩⟩ <;> cases ho

/-- How an entry `m` of the list of `own` is processed. -/
def EntryEnds (E : Env) (c : Core) (log : List (String × ObjId)) (own m : String)
    (o : Outcome Value Unit) : Prop :=
  (o = .raise (cycleError own m) ∧ c.Reaches m own) ∨ (o = .ret () ∧ ¬c.Reaches m own) ∨
    (E.stack ≤ log.length ∧ ∃ e, o = .raise e)

/-- A dependency that does not reach the target is added. -/
theorem Core.Checked.afterInsert (h : c.Checked log) {self : ObjId} (ht : (c.heap self).isTarget)
    {own m : String} (hn : c.attr self "name" = .str own) (hm : Nameable m)
    (hr : ¬c.Reaches m own) : (insertDep self m c).2.Checked log := by
  have hc := h.represents.sound
  have hst := steady_insertDep self m c
  have hadd := addsDep_insertDep hc ht m
  generalize (insertDep self m c).2 = c' at hst hadd ⊢
  have hrep := h.represents.steady hst
  have hsub : ∀ a b, c'.Edge a b → insertEdge c.Edge own m a b := by
    rintro a b ⟨hd,o,ho,hb⟩
    rw [hst.registry] at ho
    by_cases hs : o = self
    · subst hs
      rw [hadd.own] at hb
      rcases Finset.mem_union.mp hb with hb | hb
      · have hname := h.represents.registered_name hd ho ht
        rw [Core.attr_eq_rawget (by simp [hname]),hname] at hn
        cases hn
        exact .inr ⟨rfl,Finset.mem_singleton.mp hb⟩
      · exact .inl ⟨hd,o,ho,hb⟩
    · rw [hadd.others o (hc.registered ho) hs] at hb
      exact .inl ⟨hd,o,ho,hb⟩
  refine ⟨hrep,fun j hj => hst.keepsMethods j hj (h.methods j hj),?_,?_⟩
  · exact (h.acyclic.insertEdge hr).mono hsub
  · intro a b he
    rcases hsub a b he with he | ⟨_,rfl⟩
    · exact h.nameable a b he
    · exact hm

/-- An entry that is a target `t` with the name `m`. -/
theorem checked_addDependency (h : c.Checked log) {self t : ObjId} {own m : String}
    (hs : (c.heap self).isTarget) (hn : c.attr self "name" = .str own)
    (hknown : c.registry own ≠ .nil) (ht : (c.heap t).isTarget) (hm : c.attr t "name" = .str m)
    (hmn : Nameable m) : wp (addDependency E self (.obj t))
      (fun o c' => c'.Checked log ∧ EntryEnds E c log own m o) c := by
  have hc := h.represents.sound
  have hins : ∀ {c₁ : Core}, c.Quiet c₁ → ¬c.Reaches m own → wp (insertDep self m)
      (fun o c' => c'.Checked log ∧ EntryEnds E c log own m o) c₁ := by
    intro c₁ hq hr
    have h₁ := h.quiet hq
    have ht₁ : (c₁.heap self).isTarget := by rwa [hq.heap self (hc.allocated self hs)]
    have hn₁ : c₁.attr self "name" = .str own := by
      rw [hq.steady.attr hc (hc.allocated self hs) (by decide),hn]
    refine ⟨h₁.afterInsert ht₁ hn₁ hmn (by rwa [h.reaches_quiet hq]),.inr (.inl ⟨?_,hr⟩)⟩
    rw [insertDep,run_bind_of_ret (readDeps_target h₁.represents.sound ht₁)]
    rfl
  unfold addDependency
  rw [wp_bind_gets]
  simp only [id,ht,if_true,hm,hn]
  rw [wp_ite]
  split_ifs with hr
  · obtain ⟨root,hsf,hroot⟩ := h.represents.standsFor hmn.2.2.1 hmn.2.2.2 hr
    have hmethod : c.attr root "check_for_cycle" = .fn (.method .checkForCycle) :=
      hc.attr_method hsf.target (h.methods _ (by decide)) (by decide)
    have hcall : wp (callMethod E .checkForCycle "check_for_cycle" root
        (checkForCycle E E.stack root own m) fun _ => ())
        (fun o c' => c.Quiet c' ∧ CheckEnds c log E.stack m own m o) c := by
      rw [wp,callMethod_of_method E hmethod]
      exact checkForCycle_ends h E.stack hsf hmn own m
    have hroom : height c.Edge (log.map Prod.fst).toFinset m ≤ log.length :=
      (height_le m).trans ((List.toFinset_card_le _).trans (List.length_map _).le)
    rw [hroot]
    apply wp_bind_ret (m := asTable (.obj root)) rfl
    apply wp_bind_of hcall
    · rintro _ c₁ ⟨hq,⟨ho,_⟩ | ⟨_,hreach⟩ | ⟨_,_,ho⟩⟩
      · cases ho
      · exact hins hq hreach
      · cases ho
    · rintro e c₁ ⟨hq,⟨ho,hreach⟩ | ⟨ho,_⟩ | ⟨hn,_⟩⟩
      · cases ho
        exact ⟨h.quiet hq,.inl ⟨rfl,hreach⟩⟩
      · cases ho
      · exact ⟨h.quiet hq,.inr (.inr ⟨hn.trans hroom,e,rfl⟩)⟩
    · rintro c₁ ⟨_,⟨ho,_⟩ | ⟨ho,_⟩ | ⟨_,_,ho⟩⟩ <;> cases ho
  · apply hins (refl_of Core.Quiet c)
    intro hreach
    obtain rfl | ⟨y,⟨_,o,ho,_⟩,_⟩ := Relation.ReflTransGen.cases_head hreach
    · exact hr hknown
    · simp [ho] at hr

/-- The text of an error tells whether it comes from the check. -/
theorem cycleError_ne {msg : String} (h : msg.toList.head? ≠ some 'C') (t d : String) :
    .str msg ≠ cycleError t d := by
  intro he
  apply h
  rw [Value.str.inj he]
  simp

/-- An error that is not one of the check. -/
def OtherError (o : Outcome Value Unit) : Prop := ∃ e, o = .raise e ∧ ∀ t d, e ≠ cycleError t d

theorem nameable_of_edge (h : c.Checked log) {n m : String} (he : c.Edge n m) : Nameable n := by
  have hin := h.represents.mem_of_edge he
  obtain ⟨e,hmem,rfl⟩ := List.mem_map.mp (List.mem_toFinset.mp hin)
  obtain ⟨hp,hd,hb⟩ := h.represents.free e hmem
  exact ⟨hb,hd,he.1,hp⟩

/-- What is no target cannot be added. -/
theorem addDependency_other {self : ObjId} {v : Value}
    (hv : ∀ t, v = .obj t → (c.heap t).isTarget = false) :
    ∃ e, addDependency E self v c = (.raise e,c) ∧ ∀ t d, e ≠ cycleError t d := by
  refine ⟨.str "Dependency is not a valid dependency target.",?_,cycleError_ne (by decide)⟩
  cases v with
  | obj t => simp [addDependency,hv t rfl,luaError]
  | _ => rfl

/-- A handle that may stand in the list: `mt`, or a target with a name for makefiles. -/
def NodeHandle (c : Core) (t : ObjId) : Prop := t = mtTable ∨
  (c.heap t).isTarget ∧ ∃ m, Nameable m ∧ c.rawget t "name" = .str m

/-- An entry `v` is checked under its name, or it is no target and stands for a name that reaches
nothing. -/
def EntryChecked (E : Env) (c : Core) (log : List (String × ObjId)) (own : String) (v : Value)
    (o : Outcome Value Unit) (c' : Core) : Prop := c'.Checked log ∧
  ((∃ m, entryName c v = some m ∧ EntryEnds E c log own m o) ∨
    OtherError o ∧ ∀ m, entryName c v = some m → ¬c.Reaches m own)

section
variable {self : ObjId} {own : String} (h : c.Checked log) (hs : c.Settled self own)
include h hs

theorem checked_nameEntry (ht : (c.heap self).isTarget) {s : String} (hn : Nameable s) :
    wp (dependsOnEntry E self (.str s)) (EntryChecked E c log own (.str s)) c := by
  have hc := h.represents.sound
  obtain ⟨t,c₁,hrun,hq,hsf⟩ := standsFor_targetIndex h hn
  have hlt := hc.allocated self ht
  have hs₁ := hq.steady.settled hc hs
  have hm : c₁.attr t "name" = .str s := by
    rw [Core.attr_eq_rawget (by simp [hsf.name]),hsf.name]
  apply wp_bind_ret hrun
  apply wp_bind_ret (registerSelf_of_settled E hs₁)
  apply wp_mono (checked_addDependency (h.quiet hq) (by rwa [hq.heap self hlt]) hs₁.name hs₁.known
    hsf.target hm hn)
  rintro o c' ⟨hc',ho⟩
  refine ⟨hc',.inl ⟨s,rfl,?_⟩⟩
  unfold EntryEnds at ho ⊢
  rwa [h.reaches_quiet hq] at ho

/-- A name that makefiles cannot give: the lookup fails, or it gives what is no target. -/
theorem checked_otherEntry (hown : Nameable own) {s : String} (hn : ¬Nameable s) (hdef : s ≠ "__default") :
    wp (dependsOnEntry E self (.str s)) (EntryChecked E c log own (.str s)) c := by
  have hc := h.represents.sound
  have hnot : ¬c.Reaches s own := by
    intro hr
    obtain rfl | ⟨y,he,_⟩ := Relation.ReflTransGen.cases_head hr
    · exact hn hown
    · exact hn (nameable_of_edge h he)
  have hother : ∀ dep : Value, (∀ t, dep = .obj t → (c.heap t).isTarget = false) →
      targetIndex s c = (.ret dep,c) →
      wp (dependsOnEntry E self (.str s)) (EntryChecked E c log own (.str s)) c := by
    intro dep hdep hrun
    obtain ⟨e,hadd,he⟩ := addDependency_other hdep
    apply wp_bind_ret hrun
    apply wp_bind_ret (registerSelf_of_settled E hs)
    rw [wp,hadd]
    exact ⟨h,.inr ⟨⟨e,rfl,he⟩,fun m hm => by cases hm; exact hnot⟩⟩
  have hdefined : ¬(s = "defined" ∧ c.defined ≠ .nil) → s ≠ "defined" := by
    rintro hd rfl
    exact hd ⟨rfl,by simp [h.represents.proxy]⟩
  have hmember : ¬(s = "defined" ∧ c.defined ≠ .nil) → hasBackslash s = false → protectedMember s ≠ .nil :=
    fun hd hb hp => hn ⟨hb,hdefined hd,hdef,hp⟩
  rcases targetIndex_cases s c with ⟨_,_,hrun⟩ | ⟨hd,hb,_⟩ | ⟨hd,hb,_,hrun⟩ | ⟨hd,hb,hr,_⟩
  · exact hother _ (by simp [h.represents.proxy]) hrun
  · apply wp_bind_raise (targetIndex_backslash (hdefined hd) hb)
    exact ⟨h,.inr ⟨⟨_,rfl,cycleError_ne (by decide)⟩,fun m hm => by cases hm; exact hnot⟩⟩
  · refine hother _ ?_ hrun
    intro t ht
    have hmem := hc.member s (hmember hd hb)
    rw [Core.protectedMember_table (hmem.symm.trans ht),hc.mt]
  · exact absurd (hc.member s (hmember hd hb) ▸ hr) (hmember hd hb)

/-- An entry that is no string. -/
theorem checked_valueEntry (ht : (c.heap self).isTarget) {v : Value} (hv : ∀ t, v = .obj t → NodeHandle c t)
    (hstr : ∀ s, v ≠ .str s) : wp (dependsOnEntry E self v) (EntryChecked E c log own v) c := by
  have hc := h.represents.sound
  rw [dependsOnEntry_of_not_str E hstr]
  by_cases htarget : ∃ t, v = .obj t ∧ (c.heap t).isTarget
  · obtain ⟨t,rfl,htt⟩ := htarget
    obtain rfl | ⟨_,m,hm,hname⟩ := hv t rfl
    · rw [hc.mt] at htt
      cases htt
    · have hattr : c.attr t "name" = .str m := by
        rw [Core.attr_eq_rawget (by simp [hname]),hname]
      apply wp_mono (checked_addDependency h ht hs.name hs.known htt hattr hm)
      rintro o c' ⟨hc',ho⟩
      exact ⟨hc',.inl ⟨m,by simp [entryName,hattr],ho⟩⟩
  · have hno : ∀ t, v = .obj t → (c.heap t).isTarget = false := fun t ht =>
      Bool.eq_false_iff.mpr fun htt => htarget ⟨t,ht,htt⟩
    obtain ⟨e,hadd,he⟩ : ∃ e, addDependency E self v c = (.raise e,c) ∧
      ∀ t d, e ≠ cycleError t d := addDependency_other hno
    rw [wp,hadd]
    refine ⟨h,.inr ⟨⟨e,rfl,he⟩,?_⟩⟩
    intro m hm
    exfalso
    cases v with
    | obj t =>
      obtain rfl | ⟨htt,_⟩ := hv t rfl
      · simp [entryName,hc.attr_mt] at hm
      · exact htarget ⟨t,rfl,htt⟩
    | str s => exact hstr s rfl
    | _ => cases hm

/-- An entry of the list of a settled target. -/
theorem checked_dependsOnEntry (ht : (c.heap self).isTarget) (hown : Nameable own) {v : Value}
    (hdef : v ≠ .str "__default") (hv : ∀ t, v = .obj t → NodeHandle c t) :
    wp (dependsOnEntry E self v) (EntryChecked E c log own v) c := by
  by_cases hstr : ∃ s, v = .str s
  · obtain ⟨s,rfl⟩ := hstr
    by_cases hn : Nameable s
    · exact checked_nameEntry h hs ht hn
    · exact checked_otherEntry h hs hown hn fun he => hdef (congrArg Value.str he)
  · exact checked_valueEntry h hs ht hv fun s he => hstr ⟨s,he⟩

end

end
end Presto

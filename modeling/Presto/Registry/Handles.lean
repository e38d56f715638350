import Presto.Registry.Entries
import Presto.Registry.Frame

/-! Handles of plain makefiles. Every target that a declaration returns has a name, keeps it,
and has the methods of `__target`. -/
namespace Presto
open Program

/-- The methods that declarations call on targets. -/
def declMethods : List String := ["depends_on","check_for_cycle"]

/-- Declarations that bind no existing target, do not write `target["defined"]` and give no
target one of these methods. -/
def Plain : Decl → Prop
  | .index _ => True
  | .assign key v => key ≠ "defined" ∧ ∀ o, v ≠ .obj o
  | .new _ _ => False
  | .newNamed self key fields =>
    self = none ∧ key ≠ "defined" ∧ ∀ m ∈ declMethods, fields m = .nil
  | .phonyTarget name => name ≠ "defined"
  | .dirTarget dir => dir ≠ "defined"
  | .dependsOn _ _ => True

/-- The tables below `n`, which are allocated, keep the names they have. -/
def KeepsNames (n : ℕ) (c c' : Core) : Prop :=
  n ≤ c'.next ∧ ∀ o < n, ∀ k, c.rawget o "name" = .str k → c'.rawget o "name" = .str k

/-- A table that is `mt`, or a target with a name that is not `defined`. -/
def NamedHandle (c : Core) (o : ObjId) : Prop := o < c.next ∧ (o = mtTable ∨
  (c.heap o).isTarget ∧ ∃ k, k ≠ "defined" ∧ c.rawget o "name" = .str k)

def NamedAnswer (o : Outcome Value Value) (c : Core) : Prop :=
  ∀ t, o = .ret (.obj t) → NamedHandle c t

theorem KeepsNames.trans {n : ℕ} {a b c : Core} (h : KeepsNames n a b) (h' : KeepsNames n b c) :
    KeepsNames n a c := ⟨h'.1,fun o ho k hk => h'.2 o ho k (h.2 o ho k hk)⟩

theorem Core.Steady.keepsNames {c c' : Core} (h : c.Steady c') {n : ℕ} (hn : n ≤ c.next) :
    KeepsNames n c c' :=
  ⟨hn.trans h.next,fun o ho k hk => by rw [h.raw o (ho.trans_le hn) _ (by decide),hk]⟩

theorem keepsNames_alloc {c : Core} {n : ℕ} (hn : n ≤ c.next) (x : Obj) :
    KeepsNames n c (c.alloc x) :=
  ⟨Nat.le_succ_of_le hn,fun o ho k hk => by rwa [Core.rawget,c.heap_alloc_of_lt x (ho.trans_le hn)]⟩

theorem keepsNames_register {c : Core} {n : ℕ} (hn : n ≤ c.next) {key : String} {o : ObjId}
    (h : n ≤ o ∨ c.rawget o "name" = .str key) : KeepsNames n c (c.register key o) := by
  refine ⟨hn,?_⟩
  intro p hp k hk
  rw [Core.rawget_register]
  split_ifs with he
  · rcases h with h | h
    · exact absurd (he.1 ▸ hp) (not_lt.mpr h)
    · rw [← hk,he.1,h]
  · exact hk

/-- An assignment to a new target, or to one that has the name already. -/
theorem keepsNames_newindex {c : Core} {n : ℕ} (hn : n ≤ c.next) {key : String} {v : Value}
    (hv : ∀ o, v = .obj o → n ≤ o ∨ c.rawget o "name" = .str key) :
    KeepsNames n c (targetNewindex key v c).2 := by
  rcases targetNewindex_cases key v c with ⟨_,_,h⟩ | ⟨_,_,h⟩ | ⟨_,_,_,⟨f,_,h⟩ | ⟨o,ho,_,h⟩⟩ <;>
    rw [h]
  · exact ⟨hn,fun _ _ _ hk => hk⟩
  · exact ⟨hn,fun _ _ _ hk => hk⟩
  · exact (keepsNames_alloc hn _).trans (keepsNames_register (Nat.le_succ_of_le hn) (.inl hn))
  · exact keepsNames_register hn (hv o ho)

section
variable {E : Env} {c : Core} {log : List (String × ObjId)}

theorem Core.Represents.registered_named (h : c.Represents log) {k : String} {t : ObjId}
    (hk : c.registry k = .obj t) : t = mtTable ∨
      (c.heap t).isTarget ∧ ∃ k, k ≠ "defined" ∧ c.rawget t "name" = .str k := by
  by_cases hp : protectedMember k = .nil
  · obtain ⟨o,ho,ht⟩ := (h.sound.bound k hp).resolve_left (by simp [hk])
    rw [hk] at ho
    cases ho
    obtain ⟨j,hj⟩ := h.logged hk ht
    exact .inr ⟨ht,j,(h.free _ hj).2.1,(h.named _ hj).2⟩
  · exact .inl (Core.protectedMember_table ((h.sound.member k hp).symm.trans hk))

theorem namedAnswer_targetIndex (h : c.Represents log) (key : String) :
    NamedAnswer (targetIndex key c).1 (targetIndex key c).2 := by
  rcases targetIndex_cases key c with ⟨_,_,hx⟩ | ⟨_,_,_,hx⟩ | ⟨_,_,_,hx⟩ | ⟨hd,_,_,hx⟩ <;> rw [hx]
  · intro t ht
    rw [h.proxy] at ht
    cases ht
  · intro t ht
    cases ht
  · intro t ht
    have hreg := Outcome.ret.inj ht
    exact ⟨h.sound.registered hreg,h.registered_named hreg⟩
  · rintro t ⟨⟩
    refine ⟨Nat.lt_succ_self _,.inr ⟨by simp [Core.instance],key,?_,?_⟩⟩
    · rintro rfl
      exact hd ⟨rfl,by simp [h.proxy]⟩
    · simp [Core.rawget,Core.instance]

/-- A new instance, which is then registered. -/
theorem names_register_new (h : c.Represents log) (self : Option ObjId)
    (hself : ∀ p ∈ self, p < c.next) {key : String} (hd : key ≠ "defined")
    (fields : String → Value) : wp (targetNewindex key (.obj c.next)) (fun o c' =>
      KeepsNames c.next c c' ∧ (o = .ret () → ∃ log', c'.Represents log' ∧ (key,c.next) ∈ log'))
      (c.alloc (c.instance self fields)) := by
  have hx := (h.alloc self hself fields).newindex (v := .obj c.next) hd (by
    rintro _ _ o k ⟨⟩ _ hreg
    exact lt_irrefl _ (h.sound.registered hreg))
  refine ⟨(keepsNames_alloc le_rfl _).trans (keepsNames_newindex (Nat.le_succ c.next) ?_),?_⟩
  · rintro o ⟨⟩
    exact .inl le_rfl
  · intro ho
    rcases hx with ⟨e,hx⟩ | ⟨o,c',hx,hc',hv⟩ <;> rw [hx] at ho ⊢
    · cases ho
    · obtain rfl : c.next = o := by
        rcases hv with hv | ⟨f,hf,_⟩
        · exact Value.obj.inj hv
        · cases hf
      exact ⟨_,hc',by simp⟩

/-- A new instance of a class of mkinit.lua. -/
theorem names_derive (h : c.Represents log) {p : ObjId} (hp : p < 3) {key : String}
    (hd : key ≠ "defined") : wp (do
      let o ← newTarget (some p) noFields
      targetNewindex key (.obj o)
      targetIndex key) (fun o c' => KeepsNames c.next c c' ∧ NamedAnswer o c') c := by
  have hlt : p < c.next := hp.trans_le h.sound.classes
  rw [wp_bind_newTarget]
  apply wp_bind_of (names_register_new h (some p) (by rintro q ⟨⟩; exact hlt) hd noFields)
  · rintro _ c' ⟨hnames,hlog⟩
    obtain ⟨log',hlog',_⟩ := hlog rfl
    exact ⟨hnames.trans ((quiet_targetIndex key c').steady.keepsNames hnames.1),
      namedAnswer_targetIndex hlog' key⟩
  · exact fun _ _ h => ⟨h.1,fun t ht => by cases ht⟩
  · exact fun _ h => ⟨h.1,fun t ht => by cases ht⟩

theorem names_newNamed (E : Env) (h : c.Represents log) {key : String} (hd : key ≠ "defined")
    (fields : String → Value) : wp (callNew E none (newNamed none key fields))
      (fun o c' => KeepsNames c.next c c' ∧ NamedAnswer o c') c := by
  have hw : wp (newNamed none key fields) (fun o c' => KeepsNames c.next c c' ∧
      ∀ t, o = .ret t → ∃ log', c'.Represents log' ∧ (key,t) ∈ log') c := by
    unfold newNamed
    rw [wp_bind_newTarget]
    apply wp_bind_of (names_register_new h none (by simp) hd fields)
    · rintro _ c' ⟨hnames,hlog⟩
      refine ⟨hnames,?_⟩
      rintro t ⟨⟩
      exact hlog rfl
    · exact fun _ _ h => ⟨h.1,fun t ht => by cases ht⟩
    · exact fun _ h => ⟨h.1,fun t ht => by cases ht⟩
  apply wp_bind_of hw
  · rintro t c' ⟨hnames,hlog⟩
    refine ⟨hnames,?_⟩
    rintro _ ⟨⟩
    obtain ⟨log',hlog',hin⟩ := hlog t rfl
    obtain ⟨ht,hname⟩ := hlog'.named _ hin
    exact ⟨hlog'.sound.allocated _ ht,.inr ⟨ht,key,hd,hname⟩⟩
  · exact fun _ _ h => ⟨h.1,fun t ht => by cases ht⟩
  · exact fun _ h => ⟨h.1,fun t ht => by cases ht⟩

/-- `h:depends_on(list)` registers `h` under the name it has. -/
theorem keepsNames_dependsOn (h : c.Represents log) {self : ObjId} {own : String}
    (hn : c.rawget self "name" = .str own) (hown : own ≠ "defined") (ht : (c.heap self).isTarget)
    (list : List Value) : KeepsNames c.next c (dependsOn E self list c).2 := by
  unfold dependsOn
  rcases registerSelf_named (E := E) h hn hown ht with ⟨hs,hr⟩ | ⟨e,hr⟩ | ⟨_,hr,h₁,hs₁⟩
  · rw [run_bind_of_ret hr]
    exact (steady_dependsOnEntries E h.sound hs list).keepsNames le_rfl
  · rw [run_bind_of_raise hr]
    exact (refl_of Core.Steady c).keepsNames le_rfl
  · rw [run_bind_of_ret hr]
    exact (keepsNames_register le_rfl (.inr hn)).trans
      ((steady_dependsOnEntries E h₁.sound hs₁ list).keepsNames le_rfl)

/-- What one declaration does to names, and what it returns. -/
theorem names_declare (h : c.Represents log) {d : Decl} (hd : Plain d)
    (hself : ∀ o, .obj o ∈ d.uses → o < c.next ∧ (o = mtTable ∨
      (c.heap o).isTarget ∧ ∃ k, k ≠ "defined" ∧ c.rawget o "name" = .str k)) :
    wp (declare E d) (fun o c' => KeepsNames c.next c c' ∧ NamedAnswer o c') c := by
  have hnil : ∀ {c' : Core} {o : Outcome Value Value}, (∀ t, o ≠ .ret (.obj t)) →
      NamedAnswer o c' := fun ho t ht => absurd ht (ho t)
  cases d with
  | index key =>
    exact ⟨(quiet_targetIndex key c).steady.keepsNames le_rfl,namedAnswer_targetIndex h key⟩
  | assign key v =>
    have hw : wp (targetNewindex key v) (fun _ c' => KeepsNames c.next c c') c :=
      keepsNames_newindex le_rfl fun o ho => absurd ho (hd.2 o)
    apply wp_bind_of hw
    · exact fun _ _ h => ⟨h,hnil (by simp)⟩
    · exact fun _ _ h => ⟨h,hnil (by simp)⟩
    · exact fun _ h => ⟨h,hnil (by simp)⟩
  | new self fields => exact absurd hd id
  | newNamed self key fields =>
    obtain ⟨rfl,hkey,_⟩ := hd
    exact names_newNamed E h hkey fields
  | phonyTarget name =>
    have hk : targetDefined E .nil c = (.ret false,c) := by simp [targetDefined,h.proxy]
    exact wp_bind_ret hk (names_derive h (by decide) hd)
  | dirTarget dir =>
    apply wp_bind_ret (targetDefined_of_proxy E h.proxy dir)
    by_cases hr : c.registry dir = .nil
    · rw [if_neg (by simp [hr])]
      exact names_derive h (by decide) hd
    · rw [if_pos (by simp [hr])]
      apply wp_existingDir dir
      · intro c' hq
        exact ⟨(trans_of Core.Quiet hq (quiet_targetIndex dir c')).steady.keepsNames le_rfl,
          namedAnswer_targetIndex (h.steady hq.steady) dir⟩
      · exact fun o c' hq ho => ⟨hq.steady.keepsNames le_rfl,hnil fun t => ho _⟩
  | dependsOn v list =>
    have hstay : KeepsNames c.next c c := (refl_of Core.Steady c).keepsNames le_rfl
    cases v with
    | obj o =>
      constructor
      · change KeepsNames c.next c ((callMethod E .dependsOn "depends_on" o (dependsOn E o list)
          (fun _ => ()) >>= fun _ => pure Value.nil : Lua Value) c).2
        rw [snd_run_bind_pure]
        obtain ⟨_,rfl | ⟨ht,k,hk,hname⟩⟩ := hself o (by simp [Decl.uses])
        · refine callMethod_state E hstay fun hm => ?_
          rw [h.sound.attr_mt] at hm
          cases hm
        · exact callMethod_state E hstay fun _ => keepsNames_dependsOn h hname hk ht list
      · intro t ht
        obtain ⟨_,_,hnil⟩ := ret_of_bind_pure ht
        cases hnil
    | _ => exact ⟨hstay,hnil (by simp [declare,asTable,luaError])⟩

end

/-- No table has such a method of its own in `c'` if none has in `c`. -/
def KeepsMethods (c c' : Core) : Prop := ∀ m ∈ declMethods, c.Lacks m → c'.Lacks m

instance : IsPreorder Core KeepsMethods where
  refl _ _ _ h := h
  trans _ _ _ h h' m hm hl := h' m hm (h m hm hl)

theorem Core.Steady.keepsMethods {c c' : Core} (h : c.Steady c') : KeepsMethods c c' := by
  intro m hm
  apply h.lacks m
  · rintro rfl
    revert hm
    decide
  · rintro rfl
    revert hm
    decide

theorem keepsMethods_alloc {c : Core} {x : Obj} (hx : ∀ m ∈ declMethods, x.raw m = .nil) :
    KeepsMethods c (c.alloc x) := fun m hm h => Core.lacks_alloc h (hx m hm)

section
variable (E : Env)

theorem keepsMethods_of_quiet {α : Type} {m : Lua α} (h : Moves Core.Quiet m) :
    Moves KeepsMethods m := h.mono fun _ _ h => h.steady.keepsMethods

theorem keepsMethods_newTarget (self : Option ObjId) {fields : String → Value}
    (hf : ∀ m ∈ declMethods, fields m = .nil) : Moves KeepsMethods (newTarget self fields) := by
  intro c
  apply keepsMethods_alloc
  intro m hm
  have hd : m ≠ "deps" := by
    rintro rfl
    revert hm
    decide
  change Function.update fields "deps" _ m = .nil
  rw [Function.update_of_ne hd,hf m hm]

theorem keepsMethods_register (c : Core) (key : String) (o : ObjId) :
    KeepsMethods c (c.register key o) := by
  intro m hm h p
  rw [Core.rawget_register,if_neg]
  · exact h p
  · rintro ⟨_,rfl⟩
    revert hm
    decide

theorem keepsMethods_targetNewindex (key : String) (v : Value) :
    Moves KeepsMethods (targetNewindex key v) := by
  intro c
  rcases targetNewindex_cases key v c with ⟨_,_,h⟩ | ⟨_,_,h⟩ | ⟨_,_,_,⟨f,_,h⟩ | ⟨o,_,_,h⟩⟩ <;>
    rw [h]
  · exact fun _ _ h => h
  · exact refl_of KeepsMethods c
  · have hf : ∀ m ∈ declMethods, (Function.update noFields "command" (.fn f)) m = .nil := by
      intro m hm
      rw [Function.update_of_ne]
      · rfl
      · rintro rfl
        revert hm
        decide
    exact trans_of KeepsMethods (keepsMethods_newTarget none hf c) (keepsMethods_register _ key _)
  · exact keepsMethods_register c key o

theorem keepsMethods_dependsOn (self : ObjId) (list : List Value) :
    Moves KeepsMethods (dependsOn E self list) :=
  moves_dependsOn_of (fun _ _ h => h.steady.keepsMethods) E
    (fun key => keepsMethods_targetNewindex key _)
    (fun name => (steady_insertDep self name).mono fun _ _ => Core.Steady.keepsMethods) list

theorem keepsMethods_derive (p : ObjId) (key : String) : Moves KeepsMethods (do
    let o ← newTarget (some p) noFields
    targetNewindex key (.obj o)
    targetIndex key) :=
  moves_derive_of (fun _ _ h => h.steady.keepsMethods) p
    (keepsMethods_newTarget (some p) fun _ _ => rfl) keepsMethods_targetNewindex key

theorem keepsMethods_declare {d : Decl} (hd : Plain d) : Moves KeepsMethods (declare E d) := by
  cases d with
  | index key => exact keepsMethods_of_quiet (quiet_targetIndex key)
  | assign key v => exact moves_bind (keepsMethods_targetNewindex key v) fun _ => moves_pure _
  | new self fields => exact absurd hd id
  | newNamed self key fields =>
    obtain ⟨rfl,_,hf⟩ := hd
    refine moves_bind (moves_bind (keepsMethods_newTarget none hf) fun o => ?_) fun _ => moves_pure _
    exact moves_bind (keepsMethods_targetNewindex key _) fun _ => moves_pure _
  | phonyTarget name =>
    exact moves_phonyTarget_of (fun _ _ h => h.steady.keepsMethods) E name
      (keepsMethods_derive phonyClass name)
  | dirTarget dir =>
    exact moves_dirTarget_of (fun _ _ h => h.steady.keepsMethods) E dir
      (keepsMethods_derive dirClass dir)
  | dependsOn h list =>
    apply moves_bind (keepsMethods_of_quiet (quiet_asTable h))
    intro o
    refine moves_bind (fun c => moves_callMethod E fun _ => ?_) fun _ => moves_pure _
    exact keepsMethods_dependsOn E o list c

end

/-- What a run of plain declarations keeps. -/
structure Session.Tidy (s : Session) (log : List (String × ObjId)) : Prop where
  represents : s.core.Represents log
  handles : ∀ o, s.Handle o → NamedHandle s.core o
  methods : ∀ m ∈ declMethods, s.core.Lacks m

section
variable {E : Env} {s : Session} {log : List (String × ObjId)}

theorem Plain.keepsBindings {c : Core} {d : Decl} (h : Plain d) (hc : c.Sound)
    (hd : ∀ o, .obj o ∈ d.uses → NamedHandle c o) : KeepsBindings c d := by
  cases d with
  | assign key v => exact ⟨h.1,fun _ _ o _ hv => absurd hv (h.2 o)⟩
  | newNamed self key fields => exact h.2.1
  | phonyTarget name => exact h
  | dirTarget dir => exact h
  | dependsOn v list =>
    rintro o rfl
    obtain ⟨_,rfl | ⟨_,k,hk,hname⟩⟩ := hd o (by simp [Decl.uses])
    · rw [hc.attr_mt]
      simp
    · rw [Core.attr_eq_rawget (by simp [hname]),hname]
      simpa using hk
  | _ => trivial

theorem NamedHandle.keep {c c' : Core} {o : ObjId} (h : NamedHandle c o) (hc : c.Sound)
    (hk : KeepsNames c.next c c') (he : c.Evolves c') : NamedHandle c' o := by
  obtain ⟨hlt,h⟩ := h
  refine ⟨hlt.trans_le hk.1,?_⟩
  rcases h with h | ⟨ht,k,hd,hn⟩
  · exact .inl h
  · exact .inr ⟨by rw [(he hc).2.isTarget o hlt,ht],k,hd,hk.2 o hlt k hn⟩

/-- One plain declaration, with the names that it keeps. -/
theorem Session.Tidy.after (h : s.Tidy log) {d : Decl} (hk : s.Knows d) (hd : Plain d) :
    (∃ more, (s.after E d).Tidy (log++more)) ∧
      KeepsNames s.core.next s.core (s.after E d).core := by
  have huses : ∀ o, .obj o ∈ d.uses → NamedHandle s.core o := fun o ho => h.handles o (hk o ho)
  obtain ⟨hnames,hanswer⟩ := names_declare (E := E) h.represents hd huses
  obtain ⟨more,hmore⟩ := appends_declare E h.represents (hd.keepsBindings h.represents.sound huses)
  refine ⟨⟨more,hmore,?_,?_⟩,hnames⟩
  · rintro o ⟨d',hin⟩
    rcases List.mem_cons.mp hin with heq | hin
    · exact hanswer o (Prod.mk.inj heq).2.symm
    · exact (h.handles o ⟨d',hin⟩).keep h.represents.sound hnames (moves_declare E d _)
  · exact fun m hm => keepsMethods_declare E hd _ m hm (h.methods m hm)

theorem tidy_start (files : FileSystem) : (⟨Core.init files,[]⟩ : Session).Tidy [] where
  represents := Core.represents_init files
  handles := by rintro o ⟨_,h⟩; cases h
  methods m hm o := by
    unfold Core.rawget Core.init
    dsimp only
    split_ifs
    · revert m
      decide
    · revert m
      decide
    · rfl

/-- Every run of plain declarations is tidy. -/
theorem Session.Run.tidy {ok : Core → Decl → Prop} (h : s.Run E ok)
    (hok : ∀ c d, ok c d → Plain d) : ∃ log, s.Tidy log := by
  induction h with
  | start files => exact ⟨[],tidy_start files⟩
  | step _ hk hd ih =>
    obtain ⟨log,hlog⟩ := ih
    obtain ⟨⟨more,hmore⟩,_⟩ := hlog.after (E := E) hk (hok _ _ hd)
    exact ⟨_,hmore⟩

end
end Presto

import Presto.Registry.Moves

/-! The registry as a log of bindings. As long as nobody writes the raw field `defined` of the
proxy and no target is registered twice, a declaration appends to the log or leaves it alone. -/
namespace Presto
open Program

/-- The default goal is the first target that was registered. -/
def defaultGoal : List (String × ObjId) → Value
  | [] => .nil
  | e::_ => .obj e.2

namespace Core

/-- `log` lists the names that makefiles have registered and their targets, in that order. -/
structure Represents (c : Core) (log : List (String × ObjId)) : Prop where
  sound : c.Sound
  proxy : c.defined = .fn .defined
  keys : (log.map Prod.fst).Nodup
  free : ∀ e ∈ log, protectedMember e.1 = .nil ∧ e.1 ≠ "defined" ∧ hasBackslash e.1 = false
  bound : ∀ e ∈ log, c.registry e.1 = .obj e.2
  named : ∀ e ∈ log, (c.heap e.2).isTarget ∧ c.rawget e.2 "name" = .str e.1
  rest : ∀ k, protectedMember k = .nil → k ≠ "__default" → k ∉ log.map Prod.fst →
    c.registry k = .nil
  first : c.registry "__default" = defaultGoal log

variable {c c' : Core} {log : List (String × ObjId)} {key : String} {o : ObjId}

theorem represents_init (files : FileSystem) : (Core.init files).Represents [] where
  sound := sound_init files
  proxy := rfl
  keys := List.nodup_nil
  free := by simp
  bound := by simp
  named := by simp
  rest _ hk _ _ := hk
  first := rfl

theorem Represents.steady (h : c.Represents log) (hs : c.Steady c') : c'.Represents log where
  sound := (hs.evolves h.sound).1
  proxy := hs.defined.trans h.proxy
  keys := h.keys
  free := h.free
  bound e he := by rw [hs.registry,h.bound e he]
  named e he := by
    obtain ⟨ht,hn⟩ := h.named e he
    have hlt := h.sound.allocated e.2 ht
    exact ⟨by rw [hs.isTarget _ hlt,ht],by rw [hs.raw _ hlt _ (by decide),hn]⟩
  rest k hk hd hl := by rw [hs.registry,h.rest k hk hd hl]
  first := by rw [hs.registry,h.first]

theorem Represents.alloc (h : c.Represents log) (self : Option ObjId)
    (hself : ∀ p ∈ self, p < c.next) (fields : String → Value) :
    (c.alloc (c.instance self fields)).Represents log where
  sound := (evolves_alloc self hself fields h.sound).1
  proxy := h.proxy
  keys := h.keys
  free := h.free
  bound := h.bound
  named e he := by
    obtain ⟨ht,hn⟩ := h.named e he
    rw [rawget,heap_alloc_of_lt c _ (h.sound.allocated e.2 ht)]
    exact ⟨ht,hn⟩
  rest := h.rest
  first := h.first

/-- A target outside the registry is appended under a name that is not in use. -/
theorem Represents.register (h : c.Represents log) (hd : key ≠ "defined")
    (hb : hasBackslash key = false) (hk : c.registry key = .nil) (ht : (c.heap o).isTarget) (ho : ∀ k, c.registry k ≠ .obj o) :
    (c.register key o).Represents (log++[(key,o)]) := by
  have hev := (evolves_register hk ht h.sound).2
  have hfree : protectedMember key = .nil := by
    by_contra hp
    rw [h.sound.member key hp] at hk
    exact hp hk
  have hnew : key ∉ log.map Prod.fst := by
    intro hin
    obtain ⟨e,he,rfl⟩ := List.mem_map.mp hin
    rw [h.bound e he] at hk
    cases hk
  refine ⟨(evolves_register hk ht h.sound).1,h.proxy,?_,?_,?_,?_,?_,?_⟩
  · rw [List.map_append,List.nodup_append']
    exact ⟨h.keys,List.nodup_singleton _,by simpa using hnew⟩
  · intro e he
    rcases List.mem_append.mp he with he | he
    · exact h.free e he
    · obtain rfl := List.mem_singleton.mp he
      exact ⟨hfree,hd,hb⟩
  · intro e he
    rcases List.mem_append.mp he with he | he
    · rw [hev.registry _ (by simp [h.bound e he]),h.bound e he]
    · obtain rfl := List.mem_singleton.mp he
      exact c.registry_register_self key o
  · intro e he
    rw [isTarget_register,rawget_register]
    rcases List.mem_append.mp he with he | he
    · rw [if_neg]
      · exact h.named e he
      · rintro ⟨heq,_⟩
        exact ho e.1 (heq ▸ h.bound e he)
    · obtain rfl := List.mem_singleton.mp he
      exact ⟨ht,by simp⟩
  · intro k hp hdef hl
    simp only [List.map_append,List.mem_append,List.map_cons,List.map_nil,List.mem_singleton,
      not_or] at hl
    rw [c.registry_register_of_ne o hl.2 hdef,h.rest k hp hdef hl.1]
  · cases log with
    | nil =>
      have hnil : c.registry "__default" = .nil := h.first
      by_cases he : key = "__default"
      · subst he
        exact c.registry_register_self _ o
      · simp [Core.register,hnil,Function.update_of_ne (Ne.symm he),defaultGoal]
    | cons e l =>
      have hne : c.registry "__default" ≠ .nil := by simp [h.first,defaultGoal]
      have hkd : key ≠ "__default" := by
        rintro rfl
        exact hne hk
      rw [c.registry_register_default key o hne hkd,h.first]
      rfl

end Core

section Functions
variable {E : Env} {c : Core} {log : List (String × ObjId)}

/-- An assignment raises and changes nothing, or appends one binding: of the given target, or
of a new one with the given command. -/
theorem Core.Represents.newindex (h : c.Represents log) {key : String} {v : Value}
    (hd : key ≠ "defined") (hv : hasBackslash key = false → c.registry key = .nil →
      ∀ o k, v = .obj o → (c.heap o).isTarget → c.registry k ≠ .obj o) :
    (∃ e, targetNewindex key v c = (.raise e,c)) ∨
    ∃ o c', targetNewindex key v c = (.ret (),c') ∧ c'.Represents (log++[(key,o)]) ∧
      (v = .obj o ∨ ∃ f, v = .fn f ∧ c'.rawget o "command" = .fn f) := by
  rcases targetNewindex_cases key v c with ⟨hk,_,_⟩ | ⟨_,e,hr⟩ | ⟨_,hb,hk,⟨f,rfl,hr⟩ | ⟨o,rfl,ho,hr⟩⟩
  · exact absurd hk hd
  · exact .inl ⟨e,hr⟩
  · right
    have ha := h.alloc none (by simp) (Function.update noFields "command" (.fn f))
    refine ⟨c.next,_,hr,ha.register hd hb hk (by simp [Core.instance]) ?_,.inr ⟨f,rfl,?_⟩⟩
    · exact fun k hreg => lt_irrefl _ (h.sound.registered hreg)
    · rw [Core.rawget_register,if_neg (by simp),Core.rawget,Core.heap_alloc_next]
      rfl
  · exact .inr ⟨o,_,hr,h.register hd hb hk ho fun k => hv hb hk o k rfl ho,.inl rfl⟩

/-- A registered target is in the log, under the name it has. -/
theorem Core.Represents.logged (h : c.Represents log) {k : String} {o : ObjId}
    (hk : c.registry k = .obj o) (ht : (c.heap o).isTarget) : ∃ j, (j,o) ∈ log := by
  by_cases hp : protectedMember k = .nil
  · by_cases hin : k ∈ log.map Prod.fst
    · obtain ⟨e,he,rfl⟩ := List.mem_map.mp hin
      rw [h.bound e he] at hk
      cases hk
      exact ⟨e.1,he⟩
    · by_cases hd : k = "__default"
      · subst hd
        rw [h.first] at hk
        cases log with
        | nil => cases hk
        | cons e l =>
          cases hk
          exact ⟨e.1,List.mem_cons_self⟩
      · rw [h.rest k hp hd hin] at hk
        cases hk
  · rw [protectedMember_table ((h.sound.member k hp).symm.trans hk),h.sound.mt] at ht
    cases ht

/-- A target whose name is not in use is not registered at all. -/
theorem Core.Represents.unregistered_attr (h : c.Represents log) {t : ObjId} {own : String}
    (hn : c.attr t "name" = .str own) (hk : c.registry own = .nil) (ht : (c.heap t).isTarget)
    (k : String) : c.registry k ≠ .obj t := by
  intro hreg
  obtain ⟨j,hj⟩ := h.logged hreg ht
  have hname := (h.named _ hj).2
  rw [Core.attr_eq_rawget (by simp [hname]),hname] at hn
  cases hn
  simp [h.bound _ hj] at hk

theorem Core.Represents.unregistered (h : c.Represents log) {t : ObjId} {own : String}
    (hn : c.rawget t "name" = .str own) (hk : c.registry own = .nil) (ht : (c.heap t).isTarget)
    (k : String) : c.registry k ≠ .obj t :=
  h.unregistered_attr (by rw [Core.attr_eq_rawget (by simp [hn]),hn]) hk ht k

/-- The log of `c'` starts with `log`. -/
def Core.Appends (log : List (String × ObjId)) (c' : Core) : Prop :=
  ∃ more, c'.Represents (log++more)

theorem Core.Represents.appends (h : c.Represents log) : c.Appends log :=
  ⟨[],by rwa [List.append_nil]⟩

theorem appends_newindex (h : c.Represents log) {key : String} {v : Value}
    (hd : key ≠ "defined") (hv : hasBackslash key = false → c.registry key = .nil →
      ∀ o k, v = .obj o → (c.heap o).isTarget → c.registry k ≠ .obj o) :
    (targetNewindex key v c).2.Appends log := by
  rcases h.newindex hd hv with ⟨e,hr⟩ | ⟨o,c',hr,hc',_⟩ <;> rw [hr]
  · exact h.appends
  · exact ⟨_,hc'⟩

/-- A new instance of `self` is registered, as `new` does it for a table with a name. -/
theorem appends_newNamed (h : c.Represents log) (self : Option ObjId)
    (hself : ∀ p ∈ self, p < c.next) {key : String} (hd : key ≠ "defined")
    (fields : String → Value) : (newNamed self key fields c).2.Appends log := by
  change (((targetNewindex key (.obj c.next)) >>= fun _ => pure c.next) _).2.Appends log
  rw [snd_run_bind_pure]
  apply appends_newindex (h.alloc self hself fields) hd
  rintro _ _ o k ⟨⟩ _ hreg
  exact lt_irrefl _ (h.sound.registered hreg)

theorem appends_derive (h : c.Represents log) {p : ObjId} (hp : p < 3) {key : String}
    (hd : key ≠ "defined") : wp (do
      let o ← newTarget (some p) noFields
      targetNewindex key (.obj o)
      targetIndex key) (fun _ c' => c'.Appends log) c := by
  have hlt : p < c.next := hp.trans_le h.sound.classes
  have hn := appends_newNamed h (some p) (by rintro q ⟨⟩; exact hlt) hd noFields
  have hw : wp (targetNewindex key (.obj c.next)) (fun _ c' => c'.Appends log)
      (c.alloc (c.instance (some p) noFields)) := by
    change (((targetNewindex key (.obj c.next)) >>= fun _ => pure c.next) _).2.Appends log at hn
    rwa [snd_run_bind_pure] at hn
  rw [wp,run_bind_newTarget]
  apply wp_bind_of (Q := fun _ c' => c'.Appends log) hw
  · rintro _ c' ⟨more,hc'⟩
    exact ⟨more,hc'.steady (quiet_targetIndex key c').steady⟩
  · exact fun _ _ h => h
  · exact fun _ h => h

/-- `h:depends_on(list)` registers `h` when its name is not in use. -/
theorem appends_dependsOn (h : c.Represents log) {self : ObjId}
    (hd : c.attr self "name" ≠ .str "defined") (list : List Value) :
    (dependsOn E self list c).2.Appends log := by
  have hset : ∀ {c' : Core} {log' own}, c'.Represents log' → c'.Settled self own →
      (dependsOnEntries E self list c').2.Represents log' :=
    fun hc' hs => hc'.steady (steady_dependsOnEntries E hc'.sound hs list)
  unfold dependsOn
  rcases registerSelf_cases E h.proxy self with ⟨own,hs,hr⟩ | ⟨own,hn,hk,hr⟩ | ⟨e,hr⟩
  · rw [run_bind_of_ret hr]
    exact (hset h hs).appends
  · have hown : own ≠ "defined" := by
      rintro rfl
      exact hd hn
    have hx := h.newindex (v := .obj self) hown (by
      rintro _ _ o k ⟨⟩ ht
      exact h.unregistered_attr hn hk ht k)
    rcases hx with ⟨e,hx⟩ | ⟨o,c',hx,hc',ho⟩
    · rw [run_bind_of_raise (hr.trans hx)]
      exact h.appends
    · rw [run_bind_of_ret (hr.trans hx)]
      obtain rfl : self = o := by
        rcases ho with ho | ⟨f,hf,_⟩
        · cases ho; rfl
        · cases hf
      have hs : c'.Settled self own := by
        refine ⟨hc'.proxy,?_,by simp [hc'.bound (own,self) (by simp)]⟩
        have hname := (hc'.named (own,self) (by simp)).2
        rw [Core.attr_eq_rawget (by simp [hname]),hname]
      exact ⟨_,hset hc' hs⟩
  · rw [run_bind_of_raise hr]
    exact h.appends

end Functions

/-- The declarations that only add bindings: none writes `target["defined"]`, no target that is
registered is accepted under a second name. -/
def KeepsBindings (c : Core) : Decl → Prop
  | .assign key v => key ≠ "defined" ∧ (hasBackslash key = false → c.registry key = .nil →
      ∀ o k, v = .obj o → (c.heap o).isTarget → c.registry k ≠ .obj o)
  | .newNamed _ key _ => key ≠ "defined"
  | .phonyTarget name => name ≠ "defined"
  | .dirTarget dir => dir ≠ "defined"
  | .dependsOn h _ => ∀ o, h = .obj o → c.attr o "name" ≠ .str "defined"
  | _ => True

theorem appends_callNew {E : Env} {c : Core} {log : List (String × ObjId)}
    (h : c.Represents log) {self : Option ObjId} {body : Lua ObjId}
    (hbody : (∀ p ∈ self, p < c.next) → (body c).2.Appends log) :
    (callNew E self body c).2.Appends log := by
  cases self with
  | none =>
    change ((body >>= fun o => pure (Value.obj o)) c).2.Appends log
    rw [snd_run_bind_pure]
    exact hbody (by simp)
  | some p =>
    apply callMethod_state E h.appends
    intro hp
    have hnew : c.attr p "new" ≠ .nil := by simp [hp]
    rw [snd_run_bind_pure]
    apply hbody
    rintro q ⟨⟩
    exact h.sound.attr_ne_nil hnew

/-- One declaration. -/
theorem appends_declare (E : Env) {c : Core} {log : List (String × ObjId)}
    (h : c.Represents log) {d : Decl} (hd : KeepsBindings c d) :
    (declare E d c).2.Appends log := by
  cases d with
  | index key => exact (h.steady (quiet_targetIndex key c).steady).appends
  | assign key v =>
    change ((targetNewindex key v >>= fun _ => pure Value.nil) c).2.Appends log
    rw [snd_run_bind_pure]
    exact appends_newindex h hd.1 hd.2
  | new self fields =>
    exact appends_callNew h fun hself => (h.alloc self hself fields).appends
  | newNamed self key fields =>
    exact appends_callNew h fun hself => appends_newNamed h self hself hd fields
  | phonyTarget name =>
    have hk : targetDefined E .nil c = (.ret false,c) := by simp [targetDefined,h.proxy]
    change (phonyTarget E name c).2.Appends log
    rw [phonyTarget,run_bind_of_ret hk]
    exact appends_derive h (by decide) hd
  | dirTarget dir =>
    change (dirTarget E dir c).2.Appends log
    rw [dirTarget,run_bind_of_ret (targetDefined_of_proxy E h.proxy dir)]
    by_cases hr : c.registry dir = .nil
    · rw [if_neg (by simp [hr])]
      exact appends_derive h (by decide) hd
    · rw [if_pos (by simp [hr])]
      exact (h.steady (quiet_existingDir dir c).steady).appends
  | dependsOn v list =>
    cases v with
    | obj o =>
      change ((callMethod E .dependsOn "depends_on" o (dependsOn E o list) fun _ => ()) >>=
        fun _ => pure Value.nil : Lua Value) c |>.2.Appends log
      rw [snd_run_bind_pure]
      exact callMethod_state E h.appends fun _ => appends_dependsOn h (hd o rfl) list
    | _ => exact h.appends

/-- In a run whose declarations only add bindings, the registry is a log of bindings. The next
declaration appends to it; the next assignment raises and changes nothing, or appends exactly
one binding. -/
theorem registry_is_log {E : Env} {s : Session} (h : s.Run E KeepsBindings) :
    ∃ log, s.core.Represents log ∧
      (∀ d, KeepsBindings s.core d → (s.after E d).core.Appends log) ∧
      ∀ key v, KeepsBindings s.core (.assign key v) →
        (∃ e, (declare E (.assign key v) s.core) = (.raise e,s.core)) ∨
        ∃ o c', declare E (.assign key v) s.core = (.ret .nil,c') ∧
          c'.Represents (log++[(key,o)]) ∧
          (v = .obj o ∨ ∃ f, v = .fn f ∧ c'.rawget o "command" = .fn f) := by
  have hlog : ∃ log, s.core.Represents log := by
    induction h with
    | start files => exact ⟨[],Core.represents_init files⟩
    | step _ _ hd ih =>
      obtain ⟨log,hlog⟩ := ih
      obtain ⟨more,hmore⟩ := appends_declare E hlog hd
      exact ⟨log++more,hmore⟩
  obtain ⟨log,hlog⟩ := hlog
  refine ⟨log,hlog,fun d hd => appends_declare E hlog hd,?_⟩
  intro key v hd
  rcases hlog.newindex hd.1 hd.2 with ⟨e,hr⟩ | ⟨o,c',hr,hc',hv⟩
  · exact .inl ⟨e,run_bind_of_raise hr _⟩
  · exact .inr ⟨o,c',run_bind_of_ret hr _,hc',hv⟩

/-- The start of a process. -/
def Session.fresh : Session := ⟨Core.init fun _ => .absent,[]⟩

/-- The makefile of a program `app` that depends on a library `lib`. -/
def Session.library : Session := (((Session.fresh.after Env.plain (.assign "app" (.fn (.user 0)))).after Env.plain
  (.assign "lib" (.fn (.user 1)))).after Env.plain (.index "app")).after Env.plain (.dependsOn (.obj 3) [.str "lib"])

theorem registry_is_log_library : Session.library.core.registry "lib" = .obj 4 ∧
    ∃ log, Session.library.core.Represents log := by
  have happ := (show Session.fresh.Run Env.plain KeepsBindings from .start _).step
    (d := .assign "app" (.fn (.user 0))) (by simp [Session.Knows,Decl.uses])
    ⟨by decide,fun _ _ _ _ h => by cases h⟩
  have hlib := happ.step (d := .assign "lib" (.fn (.user 1))) (by simp [Session.Knows,Decl.uses])
    ⟨by decide,fun _ _ _ _ h => by cases h⟩
  have hindex := hlib.step (d := .index "app") (by simp [Session.Knows,Decl.uses]) trivial
  have hdeps : Session.library.Run Env.plain KeepsBindings := by
    refine hindex.step (fun o ho => ?_) fun o ho => ?_
    · obtain rfl : o = 3 := by simpa [Decl.uses] using ho
      exact ⟨.index "app",List.mem_cons_self⟩
    · cases ho
      decide
  obtain ⟨log,hlog,_⟩ := registry_is_log hdeps
  exact ⟨rfl,log,hlog⟩

/-- `target["defined"]=f` replaces the method and binds nothing; a target that is registered
twice keeps the last name under both. -/
theorem assign_breaks_registry :
    (∃ s : Session, s.Run Env.plain (fun _ _ => True) ∧
      s.history = [(.assign "defined" (.fn (.user 0)),.ret .nil)] ∧
      s.core.defined = .fn (.user 0) ∧ s.core.registry = protectedMember) ∧
    ∃ s : Session, s.Run Env.plain (fun _ _ => True) ∧
      s.core.registry "a" = .obj 3 ∧ s.core.rawget 3 "name" = .str "b" := by
  constructor
  · refine ⟨Session.fresh.after Env.plain (.assign "defined" (.fn (.user 0))),?_,rfl,rfl,rfl⟩
    exact (Session.Run.start _).step (by simp [Session.Knows,Decl.uses]) trivial
  · let s := (Session.fresh.after Env.plain (.assign "a" (.fn (.user 0)))).after Env.plain (.index "a")
    refine ⟨s.after Env.plain (.assign "b" (.obj 3)),?_,by decide,by decide⟩
    have hs : s.Run Env.plain (fun _ _ => True) :=
      ((Session.Run.start _).step (by simp [Session.Knows,Decl.uses]) trivial).step
        (by simp [Session.Knows,Decl.uses]) trivial
    refine hs.step ?_ trivial
    intro o ho
    obtain rfl : o = 3 := by simpa [Decl.uses] using ho
    exact ⟨.index "a",List.mem_cons.mpr (.inl rfl)⟩

end Presto

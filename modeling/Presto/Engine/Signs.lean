import Presto.Engine.Runs
import Presto.Engine.Resumes

/-! What the answers of `bring_up_to_date` are signs of. A target that has been updated, or that
has nothing to be done, is done, and so are all the targets that it leads to. -/
namespace Presto
open Program Traced

namespace Core
variable {K : Finset String} {c c' c'' : Core}

/-- Neither the files nor the dependencies of a target change. -/
structure Firm (K : Finset String) (c c' : Core) : Prop where
  next : c.next ≤ c'.next
  files : c'.files = c.files
  deps : "deps" ∈ K → ∀ o < c.next, c'.deps o = c.deps o
  failed : "dep_status" ∈ K → ∀ o < c.next, c'.rawget o "dep_status" = c.rawget o "dep_status"

/-- The fields that tell what is known of the files, and how it is found out. -/
def watched : List String := ["exists","timestamp","get_exists","get_timestamp"]

/-- The files and what is known of them do not change. -/
structure Sees (K : Finset String) (c c' : Core) : Prop where
  files : c'.files = c.files
  caches : ∀ k ∈ watched, k ∈ K → ∀ o < c.next, c'.rawget o k = c.rawget o k
  blank : ∀ k ∈ watched, k ∈ K → ∀ o, c.next ≤ o → o < c'.next → c'.rawget o k = .nil

structure Bare (K : Finset String) (c c' : Core) : Prop where
  firm : c.Firm K c'
  sees : c.Sees K c'

/-- What is known of the files in a table is what was known, or nothing is. -/
theorem Sees.old {k : String} (hs : c.Sees K c') (hst : c.Stays K c') (hk : k ∈ watched) (hK : k ∈ K)
    (o : ObjId) : c'.rawget o k = c.rawget o k ∨ c'.rawget o k = .nil := by
  by_cases ho : o < c.next
  · exact .inl (hs.caches k hk hK o ho)
  · by_cases ho' : o < c'.next
    · exact .inr (hs.blank k hk hK o (not_lt.mp ho) ho')
    · left
      rw [rawget,hst.beyond o (not_lt.mp ho')]
      rfl

theorem Firm.trans (h : c.Firm K c') (h' : c'.Firm K c'') : c.Firm K c'' where
  next := h.next.trans h'.next
  files := h'.files.trans h.files
  deps hK o ho := (h'.deps hK o (ho.trans_le h.next)).trans (h.deps hK o ho)
  failed hK o ho := (h'.failed hK o (ho.trans_le h.next)).trans (h.failed hK o ho)

theorem Firm.refl (K : Finset String) (c : Core) : c.Firm K c :=
  ⟨le_rfl,rfl,fun _ _ _ => rfl,fun _ _ _ => rfl⟩

theorem Bare.refl (K : Finset String) (c : Core) : c.Bare K c :=
  ⟨.refl K c,rfl,fun _ _ _ _ _ => rfl,fun _ _ _ _ h h' => absurd h' (not_lt.mpr h)⟩

theorem bare_of_heap (hheap : c'.heap = c.heap) (hnext : c'.next = c.next) (hfiles : c'.files = c.files) :
    c.Bare K c' where
  firm := ⟨hnext.ge,hfiles,fun _ o _ => by rw [Core.deps,Core.deps,rawget,hheap]; rfl,
    fun _ o _ => by rw [rawget,hheap]; rfl⟩
  sees := ⟨hfiles,fun k _ _ o _ => by rw [rawget,hheap]; rfl,
    fun _ _ _ o h h' => absurd h' (not_lt.mpr (hnext.le.trans h))⟩

/-- Writing a field that is no knowledge of the files. -/
theorem sees_rawset {o : ObjId} {key : String} {v : Value}
    (hk : key ∉ K ∨ key ∉ watched) : c.Sees K (c.rawset o key v) := by
  refine ⟨rfl,fun k hmem hK p _ => ?_,fun _ _ _ p h h' => absurd h' (not_lt.mpr h)⟩
  rw [rawget_rawset,if_neg]
  rintro ⟨_,rfl⟩
  exact hk.elim (fun h => h hK) fun h => h hmem

theorem firm_rawset {o : ObjId} {key : String} {v : Value}
    (hk : key ∉ K ∨ key ∉ ["deps","dep_status"]) : c.Firm K (c.rawset o key v) := by
  have hsame : ∀ k ∈ ["deps","dep_status"], k ∈ K → ∀ p,
      (c.rawset o key v).rawget p k = c.rawget p k := by
    intro k hmem hK p
    rw [rawget_rawset,if_neg]
    rintro ⟨_,rfl⟩
    exact hk.elim (fun h => h hK) fun h => h hmem
  exact ⟨le_rfl,rfl,fun hK p _ => deps_congr (hsame _ (by decide) hK p),fun hK p _ => hsame _ (by decide) hK p⟩

theorem bare_rawset {o : ObjId} {key : String} {v : Value}
    (hk : key ∉ K ∨ key ∉ ["deps","dep_status"] ∧ key ∉ watched) : c.Bare K (c.rawset o key v) :=
  ⟨firm_rawset (hk.imp_right And.left),sees_rawset (hk.imp_right And.right)⟩

/-- What is left of the dependencies of `o`, which remembers that one of them has failed. -/
def dropDeps (c : Core) (o : ObjId) (s : Finset String) : Core :=
  (c.rawset o "deps" (.names s)).rawset o "dep_status" Status.error.toValue

section
variable {o : ObjId} {s : Finset String}

@[simp] theorem dropDeps_failed : (c.dropDeps o s).rawget o "dep_status" = Status.error.toValue := by
  simp [dropDeps]

theorem dropDeps_other {q : ObjId} (hne : q ≠ o) (k : String) : (c.dropDeps o s).rawget q k = c.rawget q k := by
  simp [dropDeps,hne]

@[simp] theorem dropDeps_status (q : ObjId) : (c.dropDeps o s).rawget q "status" = c.rawget q "status" := by
  simp [dropDeps]

theorem idles_dropDeps (ho : o < c.next) (hs : s ⊆ c.deps o) : c.Idles K (c.dropDeps o s) :=
  (idles_rawset_deps ho hs).trans (idles_rawset_of_mem (c := c.rawset o "deps" (.names s)) ho
    (show "dep_status" ∈ ["exists","timestamp","errmsg","dep_status"] by decide))

theorem sees_dropDeps : c.Sees K (c.dropDeps o s) := by
  refine ⟨rfl,fun k hk _ q _ => ?_,fun _ _ _ q h h' => absurd h' (not_lt.mpr h)⟩
  simp only [watched,List.mem_cons,List.not_mem_nil,or_false] at hk
  rcases hk with rfl | rfl | rfl | rfl <;> simp [dropDeps]

end

theorem bare_alloc (c : Core) (v : Value) :
    c.Bare K (c.alloc (c.instance none (Function.update noFields "name" v))) := by
  have hraw : ∀ o < c.next, ∀ k,
      (c.alloc (c.instance none (Function.update noFields "name" v))).rawget o k = c.rawget o k := by
    intro o ho k
    rw [rawget,c.heap_alloc_of_lt _ ho]
    rfl
  refine ⟨⟨Nat.le_succ _,rfl,fun _ o ho => deps_congr (hraw o ho _),fun _ o ho => hraw o ho _⟩,rfl,
    fun k _ _ o ho => hraw o ho k,?_⟩
  intro k hk _ o ho ho'
  obtain rfl : o = c.next := le_antisymm (Nat.le_of_lt_succ ho') ho
  simp only [watched,List.mem_cons,List.not_mem_nil,or_false] at hk
  rcases hk with rfl | rfl | rfl | rfl <;> simp [rawget,Core.instance,noFields]

end Core

theorem StatusStep.of_updated {v : Value} (h : StatusStep Status.updated.toValue v) :
    v = Status.updated.toValue := by
  generalize hu : Status.updated.toValue = u at h
  rcases h with _ | _ | _
  · rfl
  · cases hu
  · cases hu

namespace Build
variable {E : Env} (B : Build E)

/-- A target that is registered under the name `m`. -/
def Target (m : String) (o : ObjId) : Prop :=
  B.origin.registry m = .obj o ∧ (B.origin.heap o).isTarget

/-- No target is the class of another one, and no field that the engine relies on can be taken
for another one. -/
structure Rooted : Prop where
  method : B.Method
  commands : B.Commands
  deps : "deps" ∈ B.guarded
  failed : "dep_status" ∈ B.guarded
  unfailed : B.origin.Lacks "dep_status"
  roots : ∀ m o, B.Target m o → ∀ p ∈ (B.origin.heap o).chain, ∀ n, ¬B.Target n p

/-- The name `m` and all that it leads to need no more work. `Still` says of which targets it is
known that they have nothing to be done, and `Source` of which other names. -/
inductive Done (Still : ObjId → Prop) (Source : String → Prop) (c : Core) : String → Prop
  | source {m : String} : B.origin.registry m = .nil → (E.flags.alwaysMake = false → Source m) →
    Done Still Source c m
  | built {m : String} {o : ObjId} : B.Target m o → c.rawget o "status" = Status.updated.toValue →
    Done Still Source c m
  | idle {m : String} {o : ObjId} : B.Target m o → Still o →
    (∀ n ∈ B.origin.deps o, Done Still Source c n) → Done Still Source c m

/-- The job of `o` has been started. -/
def Touched (w : World) (o : ObjId) : Prop := ∃ i, (o,i) ∈ starts w

variable {B}

theorem Touched.mono {w w' : World} {o : ObjId} {P : Event → Prop} (h : Touched w o) (he : Emits P w w') :
    Touched w' o := by
  obtain ⟨i,hi⟩ := h
  obtain ⟨l,hl,_⟩ := he
  refine ⟨i,?_⟩
  unfold starts at hi ⊢
  rw [hl,List.filterMap_append]
  exact List.mem_append_right _ hi

theorem Target.lt {m : String} {o : ObjId} (h : B.Target m o) : o < B.origin.next :=
  B.ready.sound.registered h.1

theorem Target.knows {m : String} {o : ObjId} (h : B.Target m o) (w : World) : B.Knows w o := .inl ⟨m,h⟩

theorem Done.mono {Still : ObjId → Prop} {Source : String → Prop} {c c' : Core} {m : String}
    (hn : B.origin.next ≤ c.next) (ha : c.Advances c') (h : B.Done Still Source c m) :
    B.Done Still Source c' m := by
  induction h with
  | source hm hs => exact .source hm hs
  | built ht hs =>
    refine .built ht ?_
    have hstep := ha.2 _ (ht.lt.trans_le hn)
    rw [hs] at hstep
    exact hstep.of_updated
  | idle ht hs _ ih => exact .idle ht hs ih

/-- The command and the name that a job of `o` runs with. -/
structure Runs (B : Build E) (o : ObjId) (f : Fn) (name : Value) : Prop where
  target : ∃ m, B.Target m o
  command : B.origin.attr o "command" = .fn f
  name : ∃ k, name = .str k ∧ B.origin.rawget o "name" = .str k ∧ Finds B.origin.registry k o

/-- What a table is that is found under a name. -/
def Leads (B : Build E) (w : World) (m : String) (o : ObjId) : Prop :=
  B.Target m o ∨ B.origin.registry m = .nil ∧ B.origin.next ≤ o ∧ o < w.now.next ∧
    w.now.rawget o "name" = .str m

/-- What is known of the answers in a build: of a target that answers `none`, of one whose
command has finished, and of those that are sure to have nothing to be done. `Inv` holds
throughout. -/
structure Signs (B : Build E) where
  Still : ObjId → Prop
  Source : String → Prop
  Present : ObjId → Prop
  Clean : ObjId → String → Prop
  Sure : ObjId → Prop
  Good : ObjId → World → Prop
  Inv : World → Prop
  first : Inv ⟨B.origin,[]⟩
  sees : ∀ {w : World} {c : Core}, B.Ledger w → Inv w → w.now.Stays B.guarded c →
    w.now.Sees B.guarded c → Inv { w with now := c }
  emit : ∀ {w : World} (e : Event), Inv w → Inv { w with trace := (e,w.now)::w.trace }
  keeps : ∀ {w : World} {c : Core} {o : ObjId}, Good o w → c.files = w.now.files → Good o { w with now := c }
  records : ∀ {w : World} {o : ObjId} (e : Event), Good o w → Good o { w with trace := (e,w.now)::w.trace }
  resume : ∀ {w : World} {o : ObjId} {f : Fn} {name : Value} {i n : ℕ} {s : Signal} {c : Core},
    B.Ledger w → Inv w → B.Runs o f name → (o,i) ∈ starts w → ⟨i,f,name,n,w.now⟩ ∈ resumed w.trace → ¬Sure o →
    resumeCommand E f name i n w.now = (.ret s,c) →
    Inv { w with now := c } ∧ (s = .finished → Good o { w with now := c }) ∧
      ∀ q, q ≠ o → (∀ m ∈ B.origin.deps q, B.Target m o → Still o) → Good q w → Good q { w with now := c }
  missing : ∀ {w : World} {o : ObjId}, B.Books w → Inv w → B.Knows w o → w.now.rawget o "status" = .nil →
    wp (missing E o) (fun r w' => Inv w' ∧ (r = .ret false → (∀ m, B.Target m o → Present o) ∧
      ∀ m, B.Leads w m o → B.origin.registry m = .nil → Source m) ∧ (Sure o → r ≠ .ret true)) w
  compare : ∀ {w : World} {m k : String} {o p : ObjId}, B.Books w → Inv w → B.Target m o →
    w.now.rawget o "status" = .nil → k ∈ B.origin.deps o → B.Leads w k p →
    (∀ n, B.Target n p → Still p) → (B.origin.registry k = .nil → E.flags.alwaysMake = false → Source k) →
    (∀ s ∈ starts w, ¬Sure s.1) → wp (do
      let s ← quietly (readTimestamp E o)
      let t ← quietly (readTimestamp E p)
      lessThan s t) (fun r w' => Inv w' ∧ (r = .ret false → Clean o k) ∧ (Sure o → r ≠ .ret true)) w
  reading : ∀ {w : World} {o : ObjId}, B.Books w → Inv w → B.Knows w o → w.now.rawget o "status" = .nil →
    Inv { w with now := (readExists E o w.now).2 }
  fresh : ∀ {m : String} {o : ObjId}, B.Target m o → E.flags.alwaysMake = false → Present o →
    (∀ k ∈ B.origin.deps o, Clean o k) → Still o
  bound : ∀ {m : String} {o : ObjId}, B.Target m o → E.flags.alwaysMake = true →
    (B.origin.attr o "command").truthy = false → Still o
  sure : ∀ {o : ObjId}, Sure o → ∀ k ∈ B.origin.deps o, ∀ p, B.Target k p → Sure p

end Build
end Presto

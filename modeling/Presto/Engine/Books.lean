import Presto.Engine.Accounts
import Presto.Registry.Moves
import Presto.Program.Digraph

/-! A build and its books: the state in which `update_goals` is called, and what every later
state of the run and the events so far have to do with it. -/
namespace Presto
open Program Traced

namespace Core

/-- One of the dependencies of `o` leads to the table `p`. -/
def Feeds (c : Core) (o p : ObjId) : Prop := ∃ m ∈ c.deps o, c.registry m = .obj p

/-- The state in which a build can begin: the makefiles have been run, and nothing is built. -/
structure Ready (c : Core) : Prop where
  sound : c.Sound
  proxy : ∀ o, c.defined ≠ .obj o
  named : ∀ m o, c.registry m = .obj o → (c.heap o).isTarget →
    ∃ k, c.rawget o "name" = .str k ∧ Finds c.registry k o
  acyclic : Acyclic c.Feeds
  unbuilt : c.Lacks "status"
  newer : ∀ o, c.NewerOk o
  running : c.running = ∅
  count : c.count = 0

/-- The fields `K` are safe from the list of newer dependencies: it is no target, or no
dependency has a name in `K`. -/
def NewerSafe (K : Finset String) (c : Core) : Prop :=
  c.registry "deps_newer" = .nil ∨ ∀ m o, c.registry m = .obj o → ∀ k ∈ K, k ∉ c.deps o

/-- Every command is a function. -/
def Callable (c : Core) : Prop :=
  c.registry "command" = .nil ∧ ∀ m o, c.registry m = .obj o →
    ∀ p ∈ o::(c.heap o).chain, (∃ f, c.rawget p "command" = .fn f) ∨
      (c.rawget p "command").truthy = false

/-- Every status has moved one way. -/
def Advances (c c' : Core) : Prop :=
  c.next ≤ c'.next ∧ ∀ o < c.next, StatusStep (c.rawget o "status") (c'.rawget o "status")

instance : IsPreorder Core Advances where
  refl _ := ⟨le_rfl,fun _ _ => .same _⟩
  trans _ _ _ h h' :=
    ⟨h.1.trans h'.1,fun o ho => (h.2 o ho).trans (h'.2 o (ho.trans_le h.1))⟩

variable {K : Finset String} {c c' : Core}

theorem Idles.advances (h : c.Idles K c') : c.Advances c' :=
  ⟨h.next,fun o ho => by rw [h.status o ho]; exact .same _⟩

theorem advances_rawset {o : ObjId} {v : Value} (hs : StatusStep (c.rawget o "status") v) :
    c.Advances (c.rawset o "status" v) := by
  refine ⟨le_rfl,fun p _ => ?_⟩
  rw [rawget_rawset]
  split_ifs with h
  · rw [h.1]
    exact hs
  · exact .same _

theorem stays_status {o : ObjId} (ho : o < c.next) (v : Value) :
    c.Stays K (c.rawset o "status" v) := by
  apply stays_rawset ho
  · exact fun h => absurd h (by decide)
  · exact fun h => absurd h (by decide)
  · exact fun h => absurd h (by decide)

theorem status_cases {v : Value} (h : StatusOk v) (hv : v ≠ .nil) :
    v = Status.updated.toValue ∨ v = Status.running.toValue ∨ v = Status.error.toValue := by
  obtain ⟨s,hs,rfl⟩ := h.resolve_left hv
  cases s
  · exact absurd rfl hs
  · exact .inl rfl
  · exact .inr (.inl rfl)
  · exact .inr (.inr rfl)

/-- A target that is not settled has no status of its own. -/
theorem Accounts.unsettled {E : Env} {named : Prop} {able : ObjId → Prop} (h : c.Accounts E named able) {o : ObjId}
    (ho : o < c.next) (hs : ¬c.settled o) : c.rawget o "status" = .nil := by
  by_contra hne
  apply hs
  unfold settled
  rw [attr_eq_rawget hne]
  exact status_cases (h.status o ho) hne

end Core

/-- The target and the number of a job that is started. -/
def Event.started : Event → Option (ObjId × ℕ)
  | .start o i => some (o,i)
  | _ => none

theorem Event.started_eq_none {e : Event} (h : ¬e.Starts) : e.started = none := by
  cases e <;> first | rfl | exact absurd trivial h

/-- The jobs that have been started, the last one first. -/
def starts (w : World) : List (ObjId × ℕ) := w.trace.filterMap fun x => x.1.started

/-- The world in which a job for `o` has got its number. -/
abbrev launched (w : World) (o : ObjId) : World where
  now := w.now.nextJob
  trace := (.start o w.now.nextJob.pos,w.now.nextJob)::w.trace

theorem starts_emit {w : World} {e : Event} (h : ¬e.Starts) :
    starts { w with trace := (e,w.now)::w.trace } = starts w := by
  simp [starts,Event.started_eq_none h]

/-- A build, and the fields of its targets that are protected from the list of newer
dependencies. -/
structure Build (E : Env) where
  origin : Core
  guarded : Finset String
  ready : origin.Ready
  status : "status" ∈ guarded
  safe : origin.NewerSafe guarded
  slots : 1 ≤ E.slots

namespace Build
variable {E : Env} (B : Build E)

/-- The targets that the main loop can come across: registered ones, and those made by lookups. -/
def Knows (w : World) (o : ObjId) : Prop :=
  (∃ m, B.origin.registry m = .obj o ∧ (B.origin.heap o).isTarget) ∨
    B.origin.next ≤ o ∧ o < w.now.next

/-- Every command is a function, and stays one. -/
def Commands : Prop := "command" ∈ B.guarded ∧ B.origin.Callable

/-- A job can be started for the target. -/
def Able (o : ObjId) : Prop := ∃ f, B.origin.attr o "command" = .fn f

/-- What every state of a build satisfies. -/
def Kept (c : Core) : Prop := B.origin.Stays B.guarded c ∧ c.Accounts E ("name" ∈ B.guarded) B.Able

/-- The accounts of a build in all its states, and the numbers of its jobs. -/
structure Ledger (w : World) : Prop where
  stays : B.origin.Stays B.guarded w.now
  accounts : w.now.Accounts E ("name" ∈ B.guarded) B.Able
  recorded : w.Recorded B.Kept Core.Advances
  ids : (starts w).Pairwise (fun new old => old.2 < new.2)
  last : ∀ s ∈ starts w, s.2 ≤ w.now.pos

/-- The job has yielded at every resume so far, and runs a command under a name of the makefile. -/
structure JobOk (i : ℕ) (j : Job) : Prop where
  yielded : ∀ n < j.resumed, ∃ v, (E.resume j.command j.target i n).signal = .yielded v
  command : B.Commands → ∃ p < B.origin.next, B.origin.rawget p "command" = .fn j.command
  target : B.Commands → "name" ∈ B.guarded → ∃ o < B.origin.next, B.origin.rawget o "name" = j.target

/-- The books of a build; a target whose job has been started keeps a status. -/
structure Books (w : World) : Prop extends B.Ledger w where
  started : B.Commands → ∀ s ∈ starts w, w.now.rawget s.1 "status" ≠ .nil
  once : B.Commands → ((starts w).map Prod.fst).Nodup
  targets : B.Commands → ∀ s ∈ starts w, s.1 < B.origin.next
  jobs : ∀ i j, w.now.running.lookup i = some j → B.JobOk i j

variable {B} {w : World} {c : Core} {o : ObjId}

theorem Ledger.linked (h : B.Ledger w) : w.now.Linked := h.stays.linked B.ready.sound.linked

theorem Ledger.registry (h : B.Ledger w) : w.now.registry = B.origin.registry := h.stays.registry

theorem Ledger.fresh (h : B.Ledger w) (ho : w.now.next ≤ o) : w.now.heap o = ⟨[],false,noFields⟩ := by
  rw [h.stays.beyond o ho]
  exact B.ready.sound.fresh o (h.stays.next.trans ho)

/-- A table that has a field is allocated. -/
theorem Ledger.allocated (h : B.Ledger w) {k : String} (hk : w.now.rawget o k ≠ .nil) :
    o < w.now.next := by
  by_contra hlt
  apply hk
  rw [Core.rawget,h.fresh (not_lt.mp hlt)]
  rfl

theorem Ledger.idles (h : B.Ledger w) (hc : w.now.Idles B.guarded c) :
    B.Ledger { w with now := c } where
  stays := h.stays.trans hc.toStays
  accounts := h.accounts.idles hc
  recorded := h.recorded.move hc.advances
  ids := h.ids
  last s hs := (h.last s hs).trans hc.pos.ge

theorem Ledger.emit (h : B.Ledger w) {e : Event} (he : ¬e.Starts) :
    B.Ledger { w with trace := (e,w.now)::w.trace } where
  stays := h.stays
  accounts := h.accounts
  recorded := h.recorded.emit e ⟨h.stays,h.accounts⟩
  ids := by rw [starts_emit he]; exact h.ids
  last := by rw [starts_emit he]; exact h.last

/-- A step of the statuses that the accounts allow. -/
theorem Ledger.move (h : B.Ledger w) (hstays : w.now.Stays B.guarded c)
    (haccounts : c.Accounts E ("name" ∈ B.guarded) B.Able) (hadv : w.now.Advances c)
    (hpos : w.now.pos ≤ c.pos) : B.Ledger { w with now := c } where
  stays := h.stays.trans hstays
  accounts := haccounts
  recorded := h.recorded.move hadv
  ids := h.ids
  last s hs := (h.last s hs).trans hpos

/-- The next job number goes to `o`. -/
theorem Ledger.start (h : B.Ledger w) (o : ObjId) : B.Ledger (launched w o) where
  stays := h.stays.trans (Core.stays_of_heap rfl rfl rfl rfl)
  accounts := h.accounts.nextJob
  recorded :=
    (h.recorded.move (s := w.now.nextJob) ⟨le_rfl,fun _ _ => .same _⟩).emit _
      ⟨h.stays.trans (Core.stays_of_heap rfl rfl rfl rfl),h.accounts.nextJob⟩
  ids := List.pairwise_cons.mpr ⟨fun s hs => Nat.lt_succ_of_le (h.last s hs),h.ids⟩
  last s hs := by
    rcases List.mem_cons.mp hs with rfl | hs
    · exact le_rfl
    · exact (h.last s hs).trans (Nat.le_succ _)

theorem Books.idles (h : B.Books w) (hc : w.now.Idles B.guarded c) :
    B.Books { w with now := c } where
  toLedger := h.toLedger.idles hc
  started ha s hs := by
    have hn := h.started ha s hs
    exact (hc.status s.1 (h.allocated hn)).symm ▸ hn
  once := h.once
  targets := h.targets
  jobs i j := by rw [hc.running]; exact h.jobs i j

theorem Books.emit (h : B.Books w) {e : Event} (he : ¬e.Starts) :
    B.Books { w with trace := (e,w.now)::w.trace } where
  toLedger := h.toLedger.emit he
  started := by rw [starts_emit he]; exact h.started
  once := by rw [starts_emit he]; exact h.once
  targets := by rw [starts_emit he]; exact h.targets
  jobs := h.jobs

theorem Books.move (h : B.Books w) (hledger : B.Ledger { w with now := c })
    (hnil : ∀ o, w.now.rawget o "status" ≠ .nil → c.rawget o "status" ≠ .nil)
    (hjobs : ∀ i j, c.running.lookup i = some j → B.JobOk i j) : B.Books { w with now := c } where
  toLedger := hledger
  started ha s hs := hnil s.1 (h.started ha s hs)
  once := h.once
  targets := h.targets
  jobs := hjobs

theorem Knows.lt_next (hb : B.Books w) (h : B.Knows w o) : o < w.now.next := by
  rcases h with ⟨m,hm,_⟩ | ⟨_,h⟩
  · exact (B.ready.sound.registered hm).trans_le hb.stays.next
  · exact h

theorem Knows.mono {w' : World} (h : B.Knows w o) (hn : w.now.next ≤ w'.now.next) : B.Knows w' o := by
  rcases h with h | ⟨h,h'⟩
  · exact .inl h
  · exact .inr ⟨h,h'.trans_le hn⟩

/-- No dependencies but those of registered targets are ever met. -/
theorem Knows.guarded_deps (h : B.Knows w o) (hb : B.Books w)
    (hnewer : w.now.registry "deps_newer" ≠ .nil) {m k : String} (hm : m ∈ B.origin.deps o)
    (hk : k ∈ B.guarded) : m ≠ k := by
  rintro rfl
  rcases B.safe with hs | hs
  · rw [hb.registry] at hnewer
    exact hnewer hs
  · rcases h with ⟨n,hn,_⟩ | ⟨h,_⟩
    · exact hs n o hn m hk hm
    · have hdeps : B.origin.deps o = ∅ := by
        simp [Core.deps,Core.rawget,B.ready.sound.fresh o h,noFields]
      rw [hdeps] at hm
      cases hm

end Build

/-- A process whose makefile has one target, with a command. -/
def Core.withCommand : Core := (targetNewindex "app" (.fn (.user 0)) (Core.init fun _ => .absent)).2

theorem rawget_withCommand (o : ObjId) (k : String) : Core.withCommand.rawget o k =
    if o = 3 then (if k = "name" then .str "app" else if k = "deps" then .names ∅ else
      if k = "command" then .fn (.user 0) else .nil) else (Core.init fun _ => .absent).rawget o k := by
  have h : Core.withCommand = ((Core.init fun _ => .absent).alloc
    ((Core.init fun _ => .absent).instance none (Function.update noFields "command" (.fn (.user 0))))).register "app" 3 := rfl
  rw [h,Core.rawget_register]
  by_cases ho : o = 3
  · subst ho
    by_cases hn : k = "name"
    · simp [hn]
    · have hr : ∀ x, ((Core.init fun _ => .absent).alloc x).rawget 3 k = x.raw k := fun x => rfl
      simp only [hn,and_false,if_false,hr,Core.instance,if_true]
      by_cases hd : k = "deps"
      · simp [hd]
      · by_cases hc : k = "command" <;> simp [hd,hc,noFields]
  · simp only [ho,false_and,if_false]
    rw [Core.rawget,Core.heap_alloc_of_ne _ _ ho]
    rfl

theorem lacks_withCommand (k : String) (hk : k ∉ ["name","deps","command","exists","timestamp"])
    (o : ObjId) : Core.withCommand.rawget o k = .nil := by
  simp only [List.mem_cons,List.not_mem_nil,or_false,not_or] at hk
  rw [rawget_withCommand]
  by_cases ho : o = 3
  · simp [ho,hk.1,hk.2.1,hk.2.2.1]
  · rw [if_neg ho]
    unfold Core.init Core.rawget
    dsimp only
    split_ifs
    · dsimp only
      split <;> first | rfl | grind
    · dsimp only
      split <;> first | rfl | grind
    · rfl

theorem registry_withCommand {m : String} {o : ObjId} (hm : Core.withCommand.registry m = .obj o) :
    o = 3 ∨ o = mtTable := by
  have hreg : Core.withCommand.registry =
    Function.update (Function.update protectedMember "__default" (.obj 3)) "app" (.obj 3) := rfl
  rw [hreg] at hm
  by_cases ha : m = "app"
  · subst ha
    exact .inl (Value.obj.inj hm).symm
  · rw [Function.update_of_ne ha] at hm
    by_cases hd : m = "__default"
    · subst hd
      exact .inl (Value.obj.inj hm).symm
    · rw [Function.update_of_ne hd] at hm
      exact .inr (Core.protectedMember_table hm)

theorem ready_withCommand : Core.withCommand.Ready := by
  have hdeps : ∀ o, Core.withCommand.deps o = ∅ := by
    intro o
    unfold Core.deps
    rw [rawget_withCommand]
    by_cases ho : o = 3
    · simp [ho]
    · rw [if_neg ho]
      unfold Core.init Core.rawget
      dsimp only
      split_ifs <;> rfl
  constructor
  · exact (moves_targetNewindex "app" (.fn (.user 0)) _ (Core.sound_init _)).1
  · exact fun o ho => by cases (show Value.fn .defined = .obj o from ho)
  · intro m o hm ht
    rcases registry_withCommand hm with rfl | rfl
    · exact ⟨"app",rfl,rfl,by decide,by decide⟩
    · cases ht
  · intro o ho
    obtain ⟨p,⟨m,hm,_⟩,_⟩ := Relation.TransGen.head'_iff.mp ho
    rw [hdeps] at hm
    cases hm
  · exact lacks_withCommand "status" (by decide)
  · exact fun o => ⟨by rw [lacks_withCommand _ (by decide)]; simp,fun d => by rw [lacks_withCommand _ (by decide)]; simp⟩
  · rfl
  · rfl

/-- A process whose makefile has a program `app` that depends on a library `lib`. -/
def Core.withLib : Core :=
  { (insertDep 3 "lib" (targetNewindex "lib" (.fn (.user 1)) Core.withCommand).2).2 with goals := {"app"} }

theorem rawget_withLib (o : ObjId) (k : String) : Core.withLib.rawget o k =
    if o = 4 then (if k = "name" then .str "lib" else if k = "deps" then .names ∅ else
      if k = "command" then .fn (.user 1) else .nil)
    else if o = 3 ∧ k = "deps" then .names {"lib"} else Core.withCommand.rawget o k := by
  let c := (Core.withCommand.alloc
    (Core.withCommand.instance none (Function.update noFields "command" (.fn (.user 1))))).register "lib" 4
  have h : Core.withLib.rawget o k = (c.rawset 3 "deps" (.names {"lib"})).rawget o k := rfl
  rw [h,Core.rawget_rawset]
  by_cases ho : o = 4
  · subst ho
    simp only [show (4 : ObjId) ≠ 3 by decide,false_and,if_false,if_true,c,Core.rawget_register,true_and]
    by_cases hn : k = "name"
    · simp [hn]
    · have hr : ∀ x, (Core.withCommand.alloc x).rawget 4 k = x.raw k := fun x => rfl
      simp only [hn,if_false,hr,Core.instance]
      by_cases hd : k = "deps"
      · simp [hd]
      · by_cases hc : k = "command" <;> simp [hd,hc,noFields]
  · simp only [ho,if_false,c,Core.rawget_register,false_and]
    split_ifs
    · rfl
    · rw [Core.rawget,Core.heap_alloc_of_ne _ _ ho]
      rfl

theorem lacks_withLib (k : String) (hk : k ∉ ["name","deps","command","exists","timestamp"]) (o : ObjId) :
    Core.withLib.rawget o k = .nil := by
  rw [rawget_withLib]
  simp only [List.mem_cons,List.not_mem_nil,or_false,not_or] at hk
  by_cases ho : o = 4
  · simp [ho,hk.1,hk.2.1,hk.2.2.1]
  · simpa [ho,hk.2.1] using lacks_withCommand k (by simp [hk]) o

theorem registry_withLib {m : String} {o : ObjId} (hm : Core.withLib.registry m = .obj o) :
    o = 3 ∨ o = 4 ∨ o = mtTable := by
  have hreg : Core.withLib.registry = Function.update Core.withCommand.registry "lib" (.obj 4) := rfl
  rw [hreg,Function.update_apply] at hm
  split_ifs at hm
  · exact .inr (.inl (Value.obj.inj hm).symm)
  · obtain h | h := registry_withCommand hm
    · exact .inl h
    · exact .inr (.inr h)

theorem deps_withLib (o : ObjId) : Core.withLib.deps o = if o = 3 then {"lib"} else ∅ := by
  unfold Core.deps
  rw [rawget_withLib,rawget_withCommand]
  by_cases h₄ : o = 4
  · simp [h₄]
  by_cases h₃ : o = 3
  · simp [h₃]
  simp only [h₄,h₃,if_false,false_and]
  unfold Core.init Core.rawget
  dsimp only
  split_ifs <;> rfl

theorem ready_withLib : Core.withLib.Ready := by
  have hfeeds : ∀ o p, Core.withLib.Feeds o p → o = 3 ∧ p = 4 := by
    intro o p h
    obtain ⟨m,hm,hreg⟩ := h
    rw [deps_withLib] at hm
    split_ifs at hm with ho
    · rw [Finset.mem_singleton.mp hm] at hreg
      exact ⟨ho,(Value.obj.inj hreg).symm⟩
    · cases hm
  have hsound : (insertDep 3 "lib" (targetNewindex "lib" (.fn (.user 1)) Core.withCommand).2).2.Sound :=
    (moves_insertDep 3 "lib" _ (moves_targetNewindex "lib" (.fn (.user 1)) _ ready_withCommand.sound).1).1
  constructor
  · exact ⟨hsound.linked,hsound.classes,hsound.mt,hsound.fresh,hsound.deps,hsound.member,hsound.bound⟩
  · exact fun o ho => by cases (show Value.fn .defined = .obj o from ho)
  · intro m o hm ht
    rcases registry_withLib hm with rfl | rfl | rfl
    · exact ⟨"app",rfl,rfl,by decide,by decide⟩
    · exact ⟨"lib",rfl,rfl,by decide,by decide⟩
    · cases ht
  · intro o ho
    obtain ⟨p,hp,hrest⟩ := Relation.TransGen.head'_iff.mp ho
    obtain ⟨rfl,rfl⟩ := hfeeds o p hp
    obtain h | ⟨q,hq,_⟩ := Relation.ReflTransGen.cases_head hrest
    · cases h
    · cases (hfeeds _ _ hq).1
  · exact lacks_withLib "status" (by decide)
  · exact fun o => ⟨by rw [lacks_withLib _ (by decide)]; simp,fun d => by rw [lacks_withLib _ (by decide)]; simp⟩
  · rfl
  · rfl

end Presto

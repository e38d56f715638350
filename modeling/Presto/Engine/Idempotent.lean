import Presto.Engine.Quiet
import Presto.Engine.Confine

/-! A build after a successful build has nothing to do. -/
namespace Presto
open Program Traced

/-- There are goals, or a first target of the makefile. -/
def Core.HasGoals (c : Core) : Prop :=
  c.goals ≠ ∅ ∨ ∃ o k, c.registry "__default" = .obj o ∧ c.attr o "name" = .str k

theorem hasGoals_of_ret {w w' : World} (h : defaultGoals w = (.ret (),w')) : w.now.HasGoals := by
  by_contra hno
  obtain ⟨hempty,hnone⟩ := not_or.mp hno
  have hwp : wp defaultGoals (fun o _ => o ≠ .ret ()) w := by
    unfold defaultGoals
    rw [wp_bind_core,wp_ite,wp_ite,if_neg hempty]
    split_ifs
    · exact fun h => by cases h
    · cases hd : w.now.registry "__default" with
      | obj o =>
        rw [wp_bind_asTable]
        cases hn : w.now.attr o "name" with
        | str k => exact absurd ⟨o,k,hd,hn⟩ hnone
        | _ => exact fun h => by cases h
      | _ => exact fun h => by cases h
  unfold wp at hwp
  rw [h] at hwp
  exact hwp rfl

theorem hasGoals_of_updateGoals {E : Env} {c : Core} (h : (updateGoals E ⟨c,[]⟩).1 = .ret ()) : c.HasGoals := by
  have hp : wp (updateGoalsP E) (fun r _ => r = .ret () → c.HasGoals) ⟨{ c with deleteOnError := ∅ },[]⟩ := by
    have hd : wp defaultGoals (fun r _ => r = .ret () → c.HasGoals) ⟨{ c with deleteOnError := ∅ },[]⟩ :=
      fun hret => hasGoals_of_ret (Prod.ext hret rfl)
    unfold updateGoalsP
    apply wp_bind_of hd
    · exact fun _ w hw => wp_mono (Q := fun _ _ => True) trivial fun _ _ _ _ => hw rfl
    · exact fun e w _ hret => by cases hret
    · exact fun w _ hret => by cases hret
  have hall : wp (updateGoals E) (fun r _ => r = .ret () → c.HasGoals) ⟨c,[]⟩ := by
    unfold updateGoals
    rw [wp_bind_modify_quietly]
    have hatt : wp (Prog.attempt (updateGoalsP E)) (fun r _ => r = .ret (.ok ()) → c.HasGoals)
        ⟨{ c with deleteOnError := ∅ },[]⟩ := by
      rw [wp_attempt]
      apply wp_mono hp
      rintro (_ | _ | _) w hw
      · exact fun _ => hw rfl
      · exact fun hret => by cases hret
      · exact fun hret => by cases hret
    apply wp_bind_of hatt
    · rintro (e | _) w hw
      · rw [wp_bind_core,wp_ite]
        split_ifs
        · exact fun h => by cases h
        · split
          · rw [wp_ite]
            split_ifs <;> exact fun h => by cases h
          · exact fun h => by cases h
          · exact fun h => by cases h
      · exact fun _ => hw rfl
    · exact fun _ _ _ hret => by cases hret
    · exact fun _ _ hret => by cases hret
  exact hall h

theorem run_defaultGoals {w : World} (h : w.now.HasGoals) :
    defaultGoals w = (.ret (),{ w with now := { w.now with goals := w.now.wanted } }) := by
  unfold Core.wanted
  by_cases hg : w.now.goals = ∅
  · obtain ⟨o,k,hd,hn⟩ := h.resolve_left fun hne => hne hg
    have hrun : wp defaultGoals (fun r w' => r = .ret () ∧
        w' = { w with now := { w.now with goals := {k} } }) w := by
      unfold defaultGoals
      rw [wp_bind_core,wp_ite,wp_ite,if_neg (by simp [hg]),hd,if_neg (by simp),wp_bind_asTable]
      dsimp only
      rw [hn]
      exact ⟨rfl,rfl⟩
    rw [if_neg (by simp [hg]),hd]
    dsimp only
    rw [hn]
    exact Prod.ext hrun.1 hrun.2
  · have hrun : wp defaultGoals (fun r w' => r = .ret () ∧ w' = w) w := by
      unfold defaultGoals
      rw [wp_bind_core,wp_ite,if_pos hg]
      exact ⟨rfl,rfl⟩
    rw [if_pos hg]
    exact Prod.ext hrun.1 hrun.2

namespace Build
variable {E : Env} {B : Build E} {w w' : World}

/-- Nothing has been started, and the goals are among the names `l`, all of them up to date. -/
structure Idling (B : Build E) (l : List String) (w : World) : Prop where
  quiet : B.Quiet w
  count : w.now.count = 0
  failure : w.now.failure = false
  starts : starts w = []
  goals : ∀ g ∈ w.now.goals, g ∈ l
  fresh : ∀ g ∈ l, B.origin.UpToDate g

theorem Quiet.of_heap {c : Core} (h : B.Quiet w) (hr : B.Rooted) (hwatch : ∀ k ∈ Core.watched, k ∈ B.guarded)
    (hi : w.now.Idles B.guarded c) (hheap : c.heap = w.now.heap) (hnext : c.next = w.now.next)
    (hfiles : c.files = w.now.files) : B.Quiet { w with now := c } := by
  have hbare : w.now.Bare B.guarded c := Core.bare_of_heap hheap hnext hfiles
  have hraw : ∀ q k, c.rawget q k = w.now.rawget q k := fun q k => by rw [Core.rawget,hheap]; rfl
  refine ⟨h.books.idles hi,h.pristine.sees hr hwatch h.books.toLedger hi.toStays hbare.sees,fun m o ht hu => ?_⟩
  obtain ⟨hs,hf,hd⟩ := h.calm m o ht hu
  exact ⟨(hraw _ _).trans hs,(hraw _ _).trans hf,(hraw _ _).trans hd⟩

theorem Quiet.emit (h : B.Quiet w) {e : Event} (he : ¬e.Starts) :
    B.Quiet { w with trace := (e,w.now)::w.trace } :=
  ⟨h.books.emit he,h.pristine.emit e,fun m o ht hu =>
    have hc := h.calm m o ht hu
    ⟨hc.status,hc.failed,hc.deps⟩⟩

variable (hg : B.origin.FileGraph) (hr : B.Rooted) (hwatch : ∀ k ∈ Core.watched, k ∈ B.guarded)
  (hA : E.flags.alwaysMake = false)
include hg hr hwatch hA

/-- A goal that is up to date is taken off the list. -/
theorem goalStep_quiet (hslots : 1 ≤ E.slots) (hstack : B.origin.next < E.stack) {name : String}
    {l : List String} (k : ℕ) (h : B.Idling (name::l) w) :
    wp (goalStep E name k) (fun r w' => r = .ret (.next (k+1)) ∧ B.Idling l w') w := by
  have hu := h.fresh name List.mem_cons_self
  obtain ⟨o,c,hlook,hh,hl,hc⟩ := h.quiet.lookup hr hwatch hu
  have hq := h.quiet.move hh
  unfold goalStep
  apply wp_bind_ret (quietly_ret hlook)
  rw [wp_bind_asTable]
  have hroom : height B.origin.Feeds (Finset.range B.origin.next) o < E.stack :=
    (height_le o).trans_lt (by simpa using hstack)
  have hvisit := visit_quiet hr hq.books (Signs.Leads.knows hl)
    (bringUpToDate_quiet hg hr hwatch hA E.stack hq hl hu hc hroom)
  apply wp_bind_of hvisit
  · rintro r w₁ ⟨he,h₁⟩
    cases he
    have hh₁ := hh.trans h₁
    have hq₁ := hq.move h₁
    apply wp_bind_ret rfl
    have hreport : reportGoal E o name Status.none.toValue = (do
        message (.str ("nothing to be done for '" ++ name ++ "'."))
        quietly (Prog.modify fun c => { c with goals := c.goals.erase name })) := by
      unfold reportGoal
      rw [if_neg (by simp [Status.toValue]),if_neg (by simp [Status.toValue]),if_pos rfl]
    rw [hreport,wp_bind_assoc]
    unfold message
    rw [wp_bind_emit,wp_bind_modify_quietly,wp_bind_core]
    have hcount : w₁.now.count = 0 := hh₁.idles.count.trans h.count
    rw [wp_ite,if_neg (by simp only [hcount]; omega)]
    have hi : w₁.now.Idles B.guarded { w₁.now with goals := w₁.now.goals.erase name } :=
      Core.idles_of_heap rfl rfl rfl rfl rfl rfl rfl
    have hq₂ : B.Quiet { w₁ with
        now := { w₁.now with goals := w₁.now.goals.erase name }
        trace := (.printed (.str ("nothing to be done for '" ++ name ++ "'.")),w₁.now)::w₁.trace } :=
      (hq₁.emit (e := .printed (.str ("nothing to be done for '" ++ name ++ "'."))) id).of_heap hr hwatch hi rfl rfl rfl
    refine ⟨rfl,hq₂,hcount,hh₁.notes.2.failure.trans h.failure,?_,fun g hg => ?_,
      fun g hg => h.fresh g (List.mem_cons_of_mem _ hg)⟩
    · have htrace : w₁.trace = w.trace := hh₁.notes.1
      have hst : starts w₁ = starts w := by
        unfold Presto.starts
        rw [htrace]
      exact hst.trans h.starts
    · obtain ⟨hne,hmem⟩ := Finset.mem_erase.mp hg
      rw [hh₁.notes.2.goals] at hmem
      exact (List.mem_cons.mp (h.goals g hmem)).resolve_left hne
  · exact fun e w' hw => by cases hw.1
  · exact fun w' hw => by cases hw.1

/-- A pass of the main loop in which all goals are up to date. -/
theorem goalPass_quiet (hslots : 1 ≤ E.slots) (hstack : B.origin.next < E.stack) {l : List String}
    (h : B.Idling l w) : wp (goalPass E) (fun r w' => ∃ b, r = .ret b ∧ B.Idling [] w' ∧
      (w.now.goals = ∅ → b = false)) w := by
  unfold goalPass
  rw [wp_bind_core]
  have hret : (quietly (enumerate E w.now.goals) : Engine (List String)) w =
      (.ret (E.names.order w.now.tick w.now.goals),{ w with now := { w.now with tick := w.now.tick+1 } }) := rfl
  apply wp_bind_ret hret
  have hi : w.now.Idles B.guarded { w.now with tick := w.now.tick+1 } :=
    Core.idles_of_heap rfl rfl rfl rfl rfl rfl rfl
  have hfirst : B.Idling (E.names.order w.now.tick w.now.goals)
      { w with now := { w.now with tick := w.now.tick+1 } } :=
    ⟨h.quiet.of_heap hr hwatch hi rfl rfl rfl,h.count,h.failure,h.starts,
      fun g hg => (E.names.mem_order _ _ g).mpr hg,
      fun g hg => h.fresh g (h.goals g ((E.names.mem_order _ _ g).mp hg))⟩
  have hloop : wp (forEach (goalStep E) (E.names.order w.now.tick w.now.goals) 0)
      (fun r w' => ∃ k, r = .ret (.fell k) ∧ B.Idling [] w' ∧ (E.names.order w.now.tick w.now.goals = [] → k = 0))
      { w with now := { w.now with tick := w.now.tick+1 } } := by
    apply wp_forEach fun l k w' => B.Idling l w' ∧ (E.names.order w.now.tick w.now.goals = [] → k = 0 ∧ l = [])
    · rintro name l k w' ⟨h',hnil⟩
      apply wp_mono (goalStep_quiet hg hr hwatch hA hslots hstack k h')
      rintro r w'' ⟨rfl,h''⟩
      exact ⟨h'',fun he => by cases (hnil he).2⟩
    · exact fun k w' ⟨h',hnil⟩ => ⟨k,rfl,h',fun he => (hnil he).1⟩
    · exact ⟨hfirst,fun he => ⟨rfl,he⟩⟩
  apply wp_bind_of hloop
  · rintro e w' ⟨k,he,h',hk⟩
    cases he
    have hdispatch : dispatchRunning E w.now.count w' = (.ret (),w') := by
      have hrun : wp (dispatchRunning E w.now.count) (fun r w'' => r = .ret () ∧ w'' = w') w' := by
        unfold dispatchRunning
        rw [wp_bind_core,wp_ite,if_neg (by simp [h'.count])]
        exact ⟨rfl,rfl⟩
      exact Prod.ext hrun.1 hrun.2
    apply wp_bind_ret hdispatch
    refine ⟨_,rfl,h',fun hempty => ?_⟩
    have hnil : E.names.order w.now.tick w.now.goals = [] := by
      rw [List.eq_nil_iff_forall_not_mem]
      intro g hg
      have hmem := (E.names.mem_order _ _ g).mp hg
      rw [hempty] at hmem
      cases hmem
    simp [hk hnil]
  · rintro e w' ⟨_,he,_⟩
    cases he
  · rintro w' ⟨_,he,_⟩
    cases he

theorem updateGoalsP_quiet (hslots : 1 ≤ E.slots) (hstack : B.origin.next < E.stack) (hfuel : 2 ≤ E.fuel)
    (hgoals : w.now.HasGoals) (h : B.Idling w.now.wanted.toList
      { w with now := { w.now with goals := w.now.wanted } }) :
    wp (updateGoalsP E) (fun r w' => r = .ret () ∧ starts w' = []) w := by
  unfold updateGoalsP
  apply wp_bind_ret (run_defaultGoals hgoals)
  obtain ⟨n,hn⟩ : ∃ n, E.fuel = n+2 := ⟨E.fuel-2,by omega⟩
  have hloop : wp (repeatWhile (goalPass E) E.fuel) (fun r w' => r = .ret () ∧ B.Idling [] w')
      { w with now := { w.now with goals := w.now.wanted } } := by
    rw [hn]
    unfold repeatWhile
    apply wp_bind_of (goalPass_quiet hg hr hwatch hA hslots hstack h)
    · rintro b w₁ ⟨_,_,h₁,_⟩
      cases b
      · exact ⟨rfl,h₁⟩
      · change wp (repeatWhile (goalPass E) (n+1)) _ w₁
        unfold repeatWhile
        have hempty : w₁.now.goals = ∅ := Finset.eq_empty_of_forall_notMem fun g hg => by cases h₁.goals g hg
        apply wp_bind_of (goalPass_quiet hg hr hwatch hA hslots hstack h₁)
        · rintro b w₂ ⟨_,he,h₂,hb⟩
          cases he
          rw [hb hempty]
          exact ⟨rfl,h₂⟩
        · rintro e w' ⟨_,he,_⟩
          cases he
        · rintro w' ⟨_,he,_⟩
          cases he
    · rintro e w' ⟨_,he,_⟩
      cases he
    · rintro w' ⟨_,he,_⟩
      cases he
  apply wp_bind_of hloop
  · rintro _ w' ⟨_,h'⟩
    rw [wp_bind_core,wp_ite,if_neg (by simp [h'.failure])]
    exact ⟨rfl,h'.starts⟩
  · exact fun e w' hw => by cases hw.1
  · exact fun w' hw => by cases hw.1

/-- A build in which everything is up to date starts nothing. -/
theorem updateGoals_quiet (hslots : 1 ≤ E.slots) (hstack : B.origin.next < E.stack) (hfuel : 2 ≤ E.fuel)
    (hgoals : B.origin.HasGoals) (hfailure : B.origin.failure = false) (hlacks : B.origin.Lacks "dep_status")
    (hup : ∀ g ∈ B.origin.wanted, B.origin.UpToDate g) :
    (updateGoals E ⟨B.origin,[]⟩).1 = .ret () ∧ starts (updateGoals E ⟨B.origin,[]⟩).2 = [] := by
  have hdeps : ∀ m o, B.Target m o → B.origin.rawget o "deps" = .names (B.origin.deps o) := by
    intro m o ht
    obtain ⟨s,hs⟩ := B.ready.sound.deps o ht.2
    rw [hs,Core.deps_of_rawget hs]
  have hq : B.Quiet ⟨B.origin,[]⟩ :=
    ⟨(free_origin B).1,.first hg,fun m o ht _ => ⟨B.ready.unbuilt o,hlacks o,hdeps m o ht⟩⟩
  have hi : B.origin.Idles B.guarded { B.origin with deleteOnError := ∅,goals := B.origin.wanted } :=
    Core.idles_of_heap rfl rfl rfl rfl rfl rfl rfl
  have hidle : B.Idling B.origin.wanted.toList
      ⟨{ B.origin with deleteOnError := ∅,goals := B.origin.wanted },[]⟩ :=
    ⟨hq.of_heap hr hwatch hi rfl rfl rfl,B.ready.count,hfailure,rfl,fun g hg => Finset.mem_toList.mpr hg,
      fun g hg => hup g (Finset.mem_toList.mp hg)⟩
  have hrun : wp (updateGoals E) (fun r w' => r = .ret () ∧ starts w' = []) ⟨B.origin,[]⟩ := by
    unfold updateGoals
    rw [wp_bind_modify_quietly]
    have hp := updateGoalsP_quiet hg hr hwatch hA hslots hstack hfuel
      (w := ⟨{ B.origin with deleteOnError := ∅ },[]⟩) hgoals hidle
    rw [wp_bind,wp_attempt]
    apply wp_mono hp
    rintro r w' ⟨rfl,hs⟩
    exact ⟨rfl,hs⟩
  exact hrun

end Build

namespace Core
variable (c : Core)

/-- The file that `target[n]` stands for. -/
def pathOf (n : String) : String :=
  match c.registry n with
  | .obj p => match c.rawget p "name" with
    | .str k => k
    | _ => n
  | _ => n

/-- The file of `o` is there, and no dependency is newer. -/
def Remade (o : ObjId) (fs : FileSystem) : Prop :=
  ∃ k t, c.rawget o "name" = .str k ∧ fs k = .file t ∧ ∀ n ∈ c.deps o, fs.stamp (c.pathOf n) ≤ t

instance (o : ObjId) (fs : FileSystem) : Decidable (c.Remade o fs) :=
  match hk : c.rawget o "name" with
  | .str k =>
    match ht : fs k with
    | .file t => decidable_of_iff (∀ n ∈ c.deps o, fs.stamp (c.pathOf n) ≤ t) (by simp [Remade,hk,ht])
    | .absent | .dir => isFalse (by simp [Remade,hk,ht])
  | .nil | .bool _ | .num _ | .fn _ | .obj _ | .names _ | .proxy | .proc _ | .table _ => isFalse (by simp [Remade,hk])

/-- A goal or a dependency. -/
def Mentions (n : String) : Prop :=
  n ∈ c.wanted ∨ ∃ m o, c.registry m = .obj o ∧ (c.heap o).isTarget ∧ n ∈ c.deps o

/-- When a job of the run finishes, the file of its target is there, and no older than its
dependencies. -/
def Remakes (E : Env) (w : World) : Prop :=
  ∀ r ∈ resumed w.trace, ∀ s ∈ starts w, s.2 = r.job → ∀ fs ∈ r.finish E, c.Remade s.1 fs

instance (E : Env) (w : World) : Decidable (c.Remakes E w) := by
  unfold Remakes
  infer_instance

variable {c} in
theorem Remakes.confined {E : Env} {w : World} (h : c.Remakes E w) (hE : Confines E w.trace) :
    c.Remakes E.confined w := fun r hr s hs hj fs hfs =>
  h r hr s hs hj fs (by rwa [finish_confined hE hr] at hfs)

/-- The files that `o` is about have not changed. -/
def Alike (o : ObjId) (fs fs' : FileSystem) : Prop :=
  (∀ k, c.rawget o "name" = .str k → fs' k = fs k) ∧ ∀ n ∈ c.deps o, fs' (c.pathOf n) = fs (c.pathOf n)

variable {c}

end Core

namespace Build
variable {E : Env} {B : Build E} {w : World}

end Build

namespace Core.FileGraph
variable {E : Env} {c : Core}

def build (h : c.FileGraph) (hslots : 1 ≤ E.slots) : Build E :=
  ⟨c,engineFields ∪ watched.toFinset,h.ready,status_guarded,.inl h.newer,hslots⟩

theorem rooted (h : c.FileGraph) (hslots : 1 ≤ E.slots) : (h.build hslots).Rooted where
  method := ⟨show "name" ∈ engineFields ∪ watched.toFinset by decide,
    show "bring_up_to_date" ∈ engineFields ∪ watched.toFinset by decide,h.method⟩
  commands := ⟨show "command" ∈ engineFields ∪ watched.toFinset by decide,h.callable⟩
  deps := show "deps" ∈ engineFields ∪ watched.toFinset by decide
  failed := show "dep_status" ∈ engineFields ∪ watched.toFinset by decide
  unfailed := h.unfailed
  roots m o ht p hp n hn := h.roots m o ht.1 ht.2 p hp n hn

theorem guarded (h : c.FileGraph) (hslots : 1 ≤ E.slots) : ∀ k ∈ watched, k ∈ (h.build hslots).guarded :=
  fun _ hk => Finset.mem_union_right _ (List.mem_toFinset.mpr hk)

/-- The files are no part of the graph. -/
theorem withFiles (h : c.FileGraph) (fs : FileSystem) : { c with files := fs }.FileGraph where
  ready := ⟨⟨h.ready.sound.linked,h.ready.sound.classes,h.ready.sound.mt,h.ready.sound.fresh,h.ready.sound.deps,
    h.ready.sound.member,h.ready.sound.bound⟩,h.ready.proxy,h.ready.named,h.ready.acyclic,h.ready.unbuilt,h.ready.newer,
    h.ready.running,h.ready.count⟩
  safe := h.safe
  callable := h.callable
  method := h.method
  unfailed := h.unfailed
  roots := h.roots
  newer := h.newer
  chain := h.chain
  plain := h.plain
  getters := h.getters
  phony := h.phony

/-- The dependencies of a target are replaced by files that are no targets. -/
theorem withSources (h : c.FileGraph) {o : ObjId} {s : Finset String} (hlt : o < c.next) (hne : o ≠ mtTable)
    (hs : ∀ k ∈ s, c.registry k = .nil) :
    (c.rawset o "deps" (.names s)).FileGraph := by
  have hraw : ∀ q k, k ≠ "deps" → (c.rawset o "deps" (.names s)).rawget q k = c.rawget q k :=
    fun q k hk => by rw [Core.rawget_rawset,if_neg fun h => hk h.2]
  have hchain : ∀ q, ((c.rawset o "deps" (.names s)).heap q).chain = (c.heap q).chain := fun q => Core.chain_rawset ..
  have htarget : ∀ q, ((c.rawset o "deps" (.names s)).heap q).isTarget = (c.heap q).isTarget :=
    fun q => Core.isTarget_rawset ..
  have hheap : ∀ q, q ≠ o → (c.rawset o "deps" (.names s)).heap q = c.heap q :=
    fun q hq => Function.update_of_ne hq ..
  have hlacks : ∀ k, k ≠ "deps" → c.Lacks k → (c.rawset o "deps" (.names s)).Lacks k :=
    fun k hk hl q => (hraw q k hk).trans (hl q)
  have hfeeds : ∀ q p, (c.rawset o "deps" (.names s)).Feeds q p → c.Feeds q p := by
    rintro q p ⟨m,hm,hp⟩
    by_cases hq : q = o
    · subst hq
      have hmem : m ∈ s := by simpa [Core.deps] using hm
      exact absurd ((hs m hmem).symm.trans hp) (by simp)
    · refine ⟨m,?_,hp⟩
      simpa [Core.deps,hq] using hm
  have hready : (c.rawset o "deps" (.names s)).Ready := by
    have hr := h.ready
    refine ⟨⟨fun q hq p ps hp => ?_,hr.sound.classes,(hheap _ hne.symm).trans hr.sound.mt,fun q hq => ?_,fun q hq => ?_,
      hr.sound.member,fun k hk => ?_⟩,hr.proxy,fun m q hm hq => ?_,fun q hq => ?_,hlacks _ (by decide) hr.unbuilt,
      fun q => ?_,hr.running,hr.count⟩
    · rw [hchain] at hp ⊢
      rw [htarget,htarget]
      exact hr.sound.linked q hq p ps hp
    · exact (hheap q (by rintro rfl; exact absurd hlt (not_lt.mpr hq))).trans (hr.sound.fresh q hq)
    · by_cases hqo : q = o
      · subst hqo
        exact ⟨s,by simp⟩
      · rw [htarget] at hq
        simpa [hqo] using hr.sound.deps q hq
    · refine (hr.sound.bound k hk).imp_right ?_
      rintro ⟨q,hq,ht⟩
      exact ⟨q,hq,(htarget q).trans ht⟩
    · rw [htarget] at hq
      rw [hraw q "name" (by decide)]
      exact hr.named m q hm hq
    · exact hr.acyclic q (Relation.TransGen.mono hfeeds q q hq)
    · have hq := hr.newer q
      unfold NewerOk at hq ⊢
      rwa [hraw q "deps_newer" (by decide)]
  refine ⟨⟨hready,.inl h.newer,⟨h.callable.1,fun m q hm p hp => ?_⟩,fun m q hm p hp => ?_,
    hlacks _ (by decide) h.unfailed,fun m q hm ht p hp n hn => ?_⟩,h.newer,fun m q hm ht => ?_,fun m q hm ht x hx => ?_,
    fun x hx q => ?_,fun x hx => ?_⟩
  · rw [hchain] at hp
    rw [hraw p "command" (by decide)]
    exact h.callable.2 m q hm p hp
  · rw [hchain] at hp
    rw [hraw p _ (by decide)]
    exact h.method m q hm p hp
  · rw [htarget] at ht hn
    rw [hchain] at hp
    exact h.roots m q hm ht p hp n hn
  · rw [htarget] at ht
    rw [hchain]
    exact h.chain m q hm ht
  · rw [htarget] at ht
    rw [hraw q _ (by rcases cachedFields_cases hx with ⟨hx,_⟩ | ⟨hx,_⟩ <;> rw [hx] <;> decide)]
    exact h.plain m q hm ht x hx
  · rw [hraw q _ (by rcases cachedFields_cases hx with ⟨_,hx⟩ | ⟨_,hx⟩ <;> rw [hx] <;> decide)]
    exact h.getters x hx q
  · rw [hraw _ _ (by rcases cachedFields_cases hx with ⟨hx,_⟩ | ⟨hx,_⟩ <;> rw [hx] <;> decide)]
    exact h.phony x hx

end Core.FileGraph

/-- Every command makes the file of its target. -/
def Env.touching : Env := { Env.plain with
  resume := fun _ name _ _ => ⟨fun fs p => if name = .str p then .file 1 else fs p,∅,.finished⟩ }

theorem tidy_touching : Env.touching.Tidy where
  effect _ _ _ _ _ _ hp := if_neg fun h => hp (Value.str.inj h).symm
  md path fs fs' p hfs hp := by
    cases hfs
    exact Function.update_of_ne hp ..

theorem mentions_withLib {n : String} (h : Core.withLib.Mentions n) : n = "app" ∨ n = "lib" := by
  obtain hgoal | ⟨m,o,hm,ht,hdep⟩ := h
  · exact .inl (Finset.mem_singleton.mp hgoal)
  · rw [deps_withLib] at hdep
    split_ifs at hdep
    · exact .inr (Finset.mem_singleton.mp hdep)
    · cases hdep

theorem findable_withLib {n : String} (h : Core.withLib.Mentions n) : Core.withLib.Findable n := by
  obtain rfl | rfl := mentions_withLib h
  · exact ⟨fun h => absurd h.1 (by decide),by decide⟩
  · exact ⟨fun h => absurd h.1 (by decide),by decide⟩

theorem fileGraph_withLib : Core.withLib.FileGraph where
  toRegular := regular_withLib
  newer := rfl
  chain m o hm ht := by
    obtain rfl | rfl | rfl := registry_withLib hm
    · exact .inl rfl
    · exact .inl rfl
    · cases ht
  plain m o hm ht x hx := by
    obtain rfl | rfl | rfl := registry_withLib hm
    · rcases cachedFields_cases hx with ⟨h,_⟩ | ⟨h,_⟩ <;> rw [h,rawget_withLib] <;> rfl
    · rcases cachedFields_cases hx with ⟨h,_⟩ | ⟨h,_⟩ <;> rw [h,rawget_withLib] <;> rfl
    · cases ht
  getters x hx o := by
    rcases cachedFields_cases hx with ⟨_,h⟩ | ⟨_,h⟩ <;> rw [h] <;> exact lacks_withLib _ (by decide) o
  phony x hx := by
    rcases cachedFields_cases hx with ⟨h,_⟩ | ⟨h,_⟩ <;> rw [h,rawget_withLib] <;> rfl

end Presto

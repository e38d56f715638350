import Presto.Engine.MainLoop
import Presto.Engine.Result

/-! Builds whose result is settled before they begin: how they end, and with `-k` also what they start. -/
namespace Presto
open Program Traced

namespace Core
variable (E : Env) (c : Core) (bad : ObjId → Prop)

/-- The files, the graph and the targets `bad`, whose commands fail, settle how a build without `-B` and `-q` ends. -/
structure Determined : Prop extends c.FileGraph where
  slots : 1 ≤ E.slots
  stack : c.next < E.stack
  always : E.flags.alwaysMake = false
  question : E.flags.question = false
  confined : c.Confined E
  judged : c.Judged E bad
  spoken : c.WellSpoken E
  named : ∀ n, c.Mentions n → c.Findable n ∧ protectedMember n = .nil
  unbound : c.registry "errmsg" = .nil
  silent : c.Lacks "errmsg"
  unlisted : c.Lacks "deps_newer"
  goals : c.HasGoals
  failure : c.failure = false

/-- The target `o` can be built, and it must be. -/
def Due (o : ObjId) : Prop := (c.Stale o ∧ (c.attr o "command").truthy) ∧ ∀ n ∈ c.deps o, ¬c.Fails bad n

variable {E c bad} {n m g : String} {o p : ObjId} {fuel : ℕ}

/-- The names of a target fail together. -/
theorem Fails.rename (h : c.Fails bad m) (hm : c.registry m = .obj o) (hn : c.registry n = .obj o) : c.Fails bad n := by
  cases h with
  | source hnil _ => exact absurd (hnil.symm.trans hm) (by simp)
  | dep hreg ht hk hfails =>
    obtain rfl := Value.obj.inj (hreg.symm.trans hm)
    exact .dep hn ht hk hfails
  | command hreg ht hold hc hbad =>
    obtain rfl := Value.obj.inj (hreg.symm.trans hm)
    exact .command hn ht hold hc hbad
  | rule hreg ht hold hc =>
    obtain rfl := Value.obj.inj (hreg.symm.trans hm)
    exact .rule hn ht hold hc

/-- What leads to a target that fails does so as well. -/
theorem Determined.fails_of_feeds (hc : c.Determined E bad) (hm : c.registry m = .obj o) (hfails : c.Fails bad m)
    (h : Relation.ReflTransGen c.Feeds p o) : ∀ n, c.Mentions n → c.registry n = .obj p → c.Fails bad n := by
  induction h using Relation.ReflTransGen.head_induction_on with
  | refl => exact fun n _ hn => hfails.rename hm hn
  | @head r _ hfeed _ ih =>
    intro n hmention hn
    obtain ⟨k,hk,hreg⟩ := hfeed
    have ht : (c.heap r).isTarget := by
      obtain hnil | ⟨q,hq,ht⟩ := hc.ready.sound.bound n (hc.named n hmention).2
      · exact absurd (hnil.symm.trans hn) (by simp)
      · obtain rfl := Value.obj.inj (hq.symm.trans hn)
        exact ht
    exact .dep hn ht hk (ih k (.inr ⟨n,r,hn,ht,hk⟩) hreg)

theorem Produces.of_fuel {fs : FileSystem} (h : c.Produces { E with fuel := fuel } fs) : c.Produces E fs := by
  induction h with
  | first => exact .first
  | resume _ hm ht hf hk hres ih => exact .resume ih hm ht hf hk hres

theorem CanAnswer.of_fuel {s : Signal} (h : c.CanAnswer { E with fuel := fuel } o s) : c.CanAnswer E o s := by
  obtain ⟨m,f,k,i,n,c',c'',hm,ht,hf,hk,hp,hres⟩ := h
  exact ⟨m,f,k,i,n,c',c'',hm,ht,hf,hk,hp.of_fuel,hres⟩

/-- How long a build may take is no matter. -/
theorem Determined.withFuel (hc : c.Determined E bad) : c.Determined { E with fuel := fuel } bad :=
  { hc with
    judged := ⟨fun o h => hc.judged.finished o h.of_fuel,fun o v h => hc.judged.raised o v h.of_fuel⟩
    spoken := ⟨fun o v h => hc.spoken.raised o v h.of_fuel,fun o v h => hc.spoken.yielded o v h.of_fuel⟩ }

end Core

/-- If every command ends, so does the build. -/
theorem Core.Determined.ends {E : Env} {c : Core} {bad : ObjId → Prop} (hc : c.Determined E bad)
    (hdies : ∀ f name i, ∃ n, ∀ v, (E.resume f name i n).signal ≠ .yielded v) :
    ∃ N, ∀ fuel ≥ N, (updateGoals { E with fuel := fuel } ⟨c,[]⟩).1 ≠ .diverge := by
  obtain ⟨R,hR⟩ := Build.exists_limit E c hdies
  refine ⟨3*((R+1)*c.next)+3+max c.goals.card 1+1,fun fuel hfuel => ?_⟩
  let B := hc.toFileGraph.build (E := { E with fuel := fuel }) hc.slots
  have hr : B.Rooted := hc.toFileGraph.rooted (E := { E with fuel := fuel }) hc.slots
  exact B.updateGoals_ends (hR fuel B rfl hr.commands hr.method.1) hr.commands hr.method hfuel

namespace Build
variable {E : Env} {B : Build E} {bad : ObjId → Prop} {w : World} {o q : ObjId}

section
variable (hc : B.origin.Determined E bad) (hr : B.Rooted) (hwatch : ∀ k ∈ Core.watched, k ∈ B.guarded)
include hc hr hwatch

theorem trial_of_determined :
    (B.verdictSigns hc.toFileGraph hr hc.confined hwatch hc.judged).Trial bad where
  graph := hc.toFileGraph
  rooted := hr
  judged := hc.judged
  spoken := hc.spoken
  always := hc.always
  question := hc.question
  named := hc.named
  unbound := hc.unbound
  pristine h := h
  fresh {m o} ht hf := by
    refine ⟨hc.always,?_,m,ht⟩
    rw [hc.always]
    exact hf
  still {m o} ht hs := ⟨hc.always,hs,m,ht⟩

/-- A run that ends returns if and only if no goal fails. -/
theorem ret_iff_of_determined (hends : (updateGoals E ⟨B.origin,[]⟩).1 ≠ .diverge) :
    (updateGoals E ⟨B.origin,[]⟩).1 = .ret () ↔ ∀ g ∈ B.origin.wanted, ¬B.origin.Fails bad g := by
  have hmain := (trial_of_determined hc hr hwatch).updateGoals_settles hc.stack hc.goals hc.failure hc.silent
    hc.unlisted hends
  constructor
  · intro hret g hg
    have hdone := ((B.verdictSigns hc.toFileGraph hr hc.confined hwatch hc.judged).updateGoals_done hr).2 hret g hg
    exact not_fails_of_done hc.toFileGraph hr hc.confined hwatch hc.judged hc.always hdone
  · intro hno
    by_contra hne
    obtain ⟨g,hg,hfails⟩ | ⟨m,o,ht,htouch,hfails⟩ := hmain.2.1 hne
    · exact hno g hg hfails
    · obtain ⟨g,hg,p,hp,hreach⟩ := wants_of_touched hr htouch
      exact hno g hg (hc.fails_of_feeds ht.1 hfails hreach g (.inl hg) hp)

omit hc hr hwatch in
/-- With `-k` what the goals lead to is tried when they are. -/
theorem Signs.tried_of_wants {S : B.Signs} (hf : S.Facts w) (hv : S.Verdicts bad w) (hk : E.flags.keepGoing = true)
    (h : ∀ g ∈ B.origin.wanted, S.Tried w.now g) (hq : B.origin.Wants q) : ∃ n, B.Target n q ∧ S.Tried w.now n := by
  obtain ⟨g,hg,o,ho,hreach⟩ := hq
  have htarget : ∀ {n p}, S.Tried w.now n → B.origin.registry n = .obj p → B.Target n p := by
    intro n p hn hp
    obtain hdone | hnil | ⟨o,ht,_⟩ := hn
    · exact target_of_done hdone hp
    · exact absurd (hnil.symm.trans hp) (by simp)
    · obtain rfl := Value.obj.inj (ht.1.symm.trans hp)
      exact ht
  induction hreach with
  | refl => exact ⟨g,htarget (h g hg) ho,h g hg⟩
  | tail _ hstep ih =>
    obtain ⟨n,ht,hn⟩ := ih
    obtain ⟨k,hmem,hreg⟩ := hstep
    have htried : S.Tried w.now k := by
      obtain hdone | hnil | ⟨o,ho,hs⟩ := hn
      · exact .inl (done_reaches hf hdone ht hmem)
      · exact absurd (hnil.symm.trans ht.1) (by simp)
      · obtain rfl := Value.obj.inj (ho.1.symm.trans ht.1)
        exact hv.tried hk n _ ht hs k hmem
    exact ⟨k,htarget htried hreg,htried⟩

/-- A run with `-k` that ends has started all that is due. -/
theorem touched_iff_due (hends : (updateGoals E ⟨B.origin,[]⟩).1 ≠ .diverge) (hk : E.flags.keepGoing = true) :
    Touched (updateGoals E ⟨B.origin,[]⟩).2 o ↔ B.origin.Due bad o := by
  obtain ⟨⟨hf,hv⟩,_,htried⟩ := (trial_of_determined hc hr hwatch).updateGoals_settles hc.stack hc.goals hc.failure
    hc.silent hc.unlisted hends
  constructor
  · exact clear_of_touched hc.toFileGraph hr hc.confined hwatch hc.judged hc.always
  · intro hdue
    obtain ⟨⟨⟨hwants,hold⟩,hcommand⟩,hdeps⟩ := hdue
    obtain ⟨n,ht,hn⟩ := Signs.tried_of_wants hf hv hk (htried hk) hwants
    obtain hdone | hnil | ⟨p,hp,hs⟩ := hn
    · cases hdone with
      | source hnil _ => exact absurd (hnil.symm.trans ht.1) (by simp)
      | built hp hs =>
        obtain rfl := Value.obj.inj (hp.1.symm.trans ht.1)
        exact (hf.touched _ (.inr hs)).1
      | idle hp hstill _ =>
        obtain rfl := Value.obj.inj (hp.1.symm.trans ht.1)
        have hfresh : B.origin.Fresh E.flags.alwaysMake _ := hstill
        rw [hc.always] at hfresh
        exact absurd hfresh hold
    · exact absurd (hnil.symm.trans ht.1) (by simp)
    · obtain rfl := Value.obj.inj (hp.1.symm.trans ht.1)
      cases hv.blamed n _ ht hs with
      | command htouch _ _ _ => exact htouch
      | dep k hmem hfails => exact absurd hfails (hdeps k hmem)
      | rule _ hno =>
        rw [hno] at hcommand
        cases hcommand

end
end Build

section Breaking

/-- The second command raises an error, the others make the files of their targets. -/
def Env.breaking : Env := { Env.touching with
  flags := ⟨false,true,false⟩
  resume := fun f name _ _ => if f = .user 1 then ⟨id,∅,.raised (.str "cl failed")⟩
    else ⟨fun fs p => if name = .str p then .file 1 else fs p,∅,.finished⟩ }

theorem command_withLib {m : String} {o : ObjId} {f : Fn} (hm : Core.withLib.registry m = .obj o)
    (ht : (Core.withLib.heap o).isTarget) (hf : Core.withLib.attr o "command" = .fn f) :
    o = 3 ∧ f = .user 0 ∨ o = 4 ∧ f = .user 1 := by
  obtain rfl | rfl | rfl := registry_withLib hm
  · exact .inl ⟨rfl,(Value.fn.inj hf).symm⟩
  · exact .inr ⟨rfl,(Value.fn.inj hf).symm⟩
  · cases ht

theorem tidy_breaking : Env.breaking.Tidy where
  effect f k i n fs p hp := by
    unfold Env.breaking
    dsimp only
    split_ifs
    · rfl
    · exact if_neg fun h => hp (Value.str.inj h).symm
  md path fs fs' p hfs hp := by
    cases hfs
    exact Function.update_of_ne hp ..

theorem canAnswer_breaking {o : ObjId} {s : Signal} (h : Core.withLib.CanAnswer Env.breaking o s) :
    o = 3 ∧ s = .finished ∨ o = 4 ∧ s = .raised (.str "cl failed") := by
  obtain ⟨m,f,k,i,n,c',c'',hm,ht,hf,_,_,hres⟩ := h
  obtain ⟨rfl,rfl⟩ | ⟨rfl,rfl⟩ := command_withLib hm ht hf
  · cases hres
    exact .inl ⟨rfl,rfl⟩
  · cases hres
    exact .inr ⟨rfl,rfl⟩

theorem judged_breaking : Core.withLib.Judged Env.breaking fun o => o = 4 where
  finished o h := by
    obtain ⟨rfl,_⟩ | ⟨_,he⟩ := canAnswer_breaking h
    · decide
    · cases he
  raised o v h := by
    obtain ⟨_,he⟩ | ⟨rfl,_⟩ := canAnswer_breaking h
    · cases he
    · rfl

theorem wellSpoken_breaking : Core.withLib.WellSpoken Env.breaking where
  raised o v h := by
    obtain ⟨_,he⟩ | ⟨_,he⟩ := canAnswer_breaking h
    · cases he
    · exact .inr (.inl ⟨_,Signal.raised.inj he⟩)
  yielded o v h := by
    obtain ⟨_,he⟩ | ⟨_,he⟩ := canAnswer_breaking h <;> cases he

theorem determined_withLib : Core.withLib.Determined Env.breaking fun o => o = 4 where
  toFileGraph := fileGraph_withLib
  slots := by decide
  stack := by decide
  always := rfl
  question := rfl
  confined := tidy_breaking.confined _
  judged := judged_breaking
  spoken := wellSpoken_breaking
  named n h := by
    refine ⟨findable_withLib h,?_⟩
    obtain rfl | rfl := mentions_withLib h
    · rfl
    · rfl
  unbound := rfl
  silent := lacks_withLib _ (by decide)
  unlisted := lacks_withLib _ (by decide)
  goals := .inl (by decide)
  failure := rfl

theorem dies_breaking (f : Fn) (name : Value) (i : ℕ) :
    ∃ n, ∀ v, (Env.breaking.resume f name i n).signal ≠ .yielded v := by
  refine ⟨0,fun v => ?_⟩
  change (if f = .user 1 then _ else _ : Resumption).signal ≠ _
  split_ifs <;> simp

end Breaking

/-- In every run only what is due is started: a stale target with a command, none of whose dependencies fails. -/
theorem starts_only_due (E : Env) (hslots : 1 ≤ E.slots) (c : Core) (bad : ObjId → Prop) (hc : c.FileGraph)
    (hE : c.Confined E) (hJ : c.Judged E bad) (hA : E.flags.alwaysMake = false) :
    ∀ o ∈ (starts (updateGoals E ⟨c,[]⟩).2).map Prod.fst, c.Due bad o := by
  intro o ho
  exact Build.clear_of_touched (B := hc.build hslots) hc (hc.rooted hslots) hE (hc.guarded hslots) hJ hA
    (Build.touched_iff_mem.mpr ho)

/-- `lib` is started, and `app` is not. -/
theorem starts_only_due_lib : (starts (updateGoals Env.breaking ⟨Core.withLib,[]⟩).2).map Prod.fst = [4] ∧
    ∀ o ∈ (starts (updateGoals Env.breaking ⟨Core.withLib,[]⟩).2).map Prod.fst, Core.withLib.Due (fun o => o = 4) o :=
  ⟨by decide +kernel,starts_only_due Env.breaking (by decide) Core.withLib (fun o => o = 4) fileGraph_withLib
    (tidy_breaking.confined _) judged_breaking rfl⟩

/-- A build ends, and it does so without an error if and only if no goal fails: neither `-j` and `-k` nor any order
have an influence. -/
theorem returns_iff_goals_succeed (E : Env) (c : Core) (bad : ObjId → Prop) (hc : c.Determined E bad)
    (hdies : ∀ f name i, ∃ n, ∀ v, (E.resume f name i n).signal ≠ .yielded v) : ∃ N, ∀ fuel ≥ N,
      (updateGoals { E with fuel := fuel } ⟨c,[]⟩).1 ≠ .diverge ∧
      ((updateGoals { E with fuel := fuel } ⟨c,[]⟩).1 = .ret () ↔ ∀ g ∈ c.wanted, ¬c.Fails bad g) := by
  obtain ⟨N,hN⟩ := hc.ends hdies
  refine ⟨N,fun fuel hfuel => ⟨hN fuel hfuel,?_⟩⟩
  have hc' : c.Determined { E with fuel := fuel } bad := hc.withFuel
  have hg := hc'.toFileGraph
  exact Build.ret_iff_of_determined (B := hg.build hc'.slots) hc' (hg.rooted hc'.slots) (hg.guarded hc'.slots)
    (hN fuel hfuel)

theorem returns_iff_goals_succeed_lib : ∃ N, ∀ fuel ≥ N,
    (updateGoals { Env.breaking with fuel := fuel } ⟨Core.withLib,[]⟩).1 ≠ .diverge ∧
    ((updateGoals { Env.breaking with fuel := fuel } ⟨Core.withLib,[]⟩).1 = .ret () ↔
      ∀ g ∈ Core.withLib.wanted, ¬Core.withLib.Fails (fun o => o = 4) g) :=
  returns_iff_goals_succeed Env.breaking Core.withLib (fun o => o = 4) determined_withLib dies_breaking

/-- With `-k` a build starts all that is due, each target once, although some commands may fail. -/
theorem keepGoing_starts_due (E : Env) (c : Core) (bad : ObjId → Prop) (hc : c.Determined E bad)
    (hdies : ∀ f name i, ∃ n, ∀ v, (E.resume f name i n).signal ≠ .yielded v) (hk : E.flags.keepGoing = true) :
    ∃ N, ∀ fuel ≥ N, ((starts (updateGoals { E with fuel := fuel } ⟨c,[]⟩).2).map Prod.fst).Nodup ∧
      ∀ o, o ∈ (starts (updateGoals { E with fuel := fuel } ⟨c,[]⟩).2).map Prod.fst ↔ c.Due bad o := by
  obtain ⟨N,hN⟩ := hc.ends hdies
  refine ⟨N,fun fuel hfuel => ?_⟩
  have hc' : c.Determined { E with fuel := fuel } bad := hc.withFuel
  have hg := hc'.toFileGraph
  have hr := hg.rooted hc'.slots
  refine ⟨(hg.build hc'.slots).updateGoals_books.once hr.commands,fun o => ?_⟩
  rw [← Build.touched_iff_mem]
  exact Build.touched_iff_due (B := hg.build hc'.slots) hc' hr (hg.guarded hc'.slots) (hN fuel hfuel) hk

theorem keepGoing_starts_due_lib : ∃ N, ∀ fuel ≥ N,
    ((starts (updateGoals { Env.breaking with fuel := fuel } ⟨Core.withLib,[]⟩).2).map Prod.fst).Nodup ∧
    ∀ o, o ∈ (starts (updateGoals { Env.breaking with fuel := fuel } ⟨Core.withLib,[]⟩).2).map Prod.fst ↔
      Core.withLib.Due (fun o => o = 4) o :=
  keepGoing_starts_due Env.breaking Core.withLib (fun o => o = 4) determined_withLib dies_breaking rfl

end Presto

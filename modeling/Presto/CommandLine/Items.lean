import Presto.CommandLine

/-! The items that `parse_commandline` cuts the command line into, whether it executes code or
not, and those that the usage text describes. -/
namespace Presto
open Program

/-- An item of the command line; `jobs none` is `-j` without a number. -/
inductive Item
  | flag (c : Char)
  | withArg (c : Char) (arg : Arg)
  | jobs (n : Option Arg)
  | assign (a : Arg)
  | goal (a : Arg)
  | version
  | usage
  deriving DecidableEq

def itemWithArg (c : Char) (arg : Arg) : Item := if c = 'j' then .jobs (some arg) else .withArg c arg

def parameterItem (a : Arg) : Item := if '=' ∈ a then .assign a else .goal a

/-- The items of one element, as `switches` goes through them. -/
def cutCluster (next : Option Arg) : Arg → List Item × ClusterEnd
  | [] => ([],.next)
  | c::sw =>
    if (flagName c).isSome then (.flag c::(cutCluster next sw).1,(cutCluster next sw).2)
    else if c = 'v' then ([.version],.left)
    else if takesArg c then
      match getArg sw next with
      | none => ([.usage],.left)
      | some (arg,e) => ([itemWithArg c arg],e)
    else ([.usage],.left)

def cutArgs : Bool → List Arg → List Item
  | _,[] => []
  | parsing,a::argv =>
    if parsing = true ∧ a.head? = some '-' then
      if a.tail.head? = some '-' then
        if a.tail.tail = [] then cutArgs false argv else [.usage]
      else
        (cutCluster argv.head? a.tail).1 ++
          match (cutCluster argv.head? a.tail).2 with
          | .left => []
          | .next => cutArgs true argv
          | .used =>
            match argv with
            | [] => []
            | _::rest => cutArgs true rest
    else parameterItem a::cutArgs parsing argv

section
variable (S : System) (execute : Bool)

/-- What `parse_commandline` does with an item. -/
def runItem : Item → Cmd ClusterEnd
  | .flag c => do
    Prog.modify fun s => { s with
      settings := s.settings.setFlag ((flagName c).getD "")
      quit := s.quit || c = 'Q' }
    pure .next
  | .withArg c arg => switchWithArg S execute c arg .next
  | .jobs n => switchWithArg S execute 'j' (n.getD []) .next
  | .assign a => do
    parameter a
    pure .next
  | .goal a => do
    parameter a
    pure .next
  | .version => do
    showVersion
    pure .left
  | .usage => do
    badUsage
    pure .left

/-- Go on with `m` unless `parse_commandline` returns. -/
def goOn (m : Cmd ClusterEnd) : ClusterEnd → Cmd ClusterEnd
  | .left => pure .left
  | _ => m

def runItems : List Item → Cmd ClusterEnd
  | [] => pure .next
  | i::l => runItem S execute i >>= goOn (runItems l)

end

section
variable {S : System} {execute : Bool}

theorem goOn_goOn (x m n : Cmd ClusterEnd) :
    (x >>= goOn m) >>= goOn n = x >>= goOn (m >>= goOn n) := by
  rw [prog_bind_assoc]
  congr 1
  funext e
  cases e <;> rfl

theorem runItems_append (l m : List Item) :
    runItems S execute (l++m) = runItems S execute l >>= goOn (runItems S execute m) := by
  induction l with
  | nil => rfl
  | cons i l ih =>
    rw [List.cons_append,runItems,runItems,ih,goOn_goOn]

theorem switchWithArg_eq (c : Char) (arg : Arg) (e : ClusterEnd) :
    switchWithArg S execute c arg e = switchWithArg S execute c arg .next >>= goOn (pure e) := by
  have hstatus : ∀ code after, handleStatus S code after e =
      handleStatus S code after .next >>= goOn (pure e) := by
    intro code after
    unfold handleStatus
    funext s
    simp only [prog_bind_assoc,run_bind_gets,run_bind_modify,id]
    split_ifs <;> rfl
  unfold switchWithArg
  split
  · rfl
  · split_ifs
    · exact hstatus _ _
    · rfl
  · split_ifs
    · exact hstatus _ _
    · rfl
  · split_ifs
    · exact hstatus _ _
    · rfl
  · rfl

theorem runItem_itemWithArg (c : Char) (arg : Arg) :
    runItem S execute (itemWithArg c arg) = switchWithArg S execute c arg .next := by
  unfold itemWithArg
  split_ifs with h
  · rw [h]
    rfl
  · rfl

/-- The loop over a cluster executes the items of the cluster. -/
theorem switches_eq (next : Option Arg) (sw : Arg) :
    switches S execute next sw =
      runItems S execute (cutCluster next sw).1 >>= goOn (pure (cutCluster next sw).2) := by
  induction sw with
  | nil => rfl
  | cons c sw ih =>
    unfold switches cutCluster
    cases hf : flagName c with
    | some name =>
      simp only [Option.isSome_some,if_true]
      rw [ih,runItems,goOn_goOn]
      simp only [runItem,hf]
      rfl
    | none =>
      simp only [Option.isSome_none,Bool.false_eq_true,if_false]
      split_ifs with hv ha
      · rfl
      · cases hg : getArg sw next with
        | none => rfl
        | some r =>
          obtain ⟨arg,e⟩ := r
          simp only [runItems,runItem_itemWithArg,goOn_goOn]
          rw [switchWithArg_eq c arg e]
          rfl
      · rfl

/-- `parse_commandline` executes the items it cuts the command line into. -/
theorem parseArgs_eq (parsing : Bool) (argv : List Arg) :
    parseArgs S execute parsing argv =
      runItems S execute (cutArgs parsing argv) >>= fun _ => pure () := by
  induction hn : argv.length using Nat.strong_induction_on generalizing argv parsing with
  | _ n ih =>
    cases argv with
    | nil =>
      unfold parseArgs cutArgs
      rfl
    | cons a argv =>
      have hlen : argv.length < n := by simp at hn; omega
      unfold parseArgs cutArgs
      split_ifs
      · exact ih _ hlen false argv rfl
      · rfl
      · rw [switches_eq,runItems_append,prog_bind_assoc,prog_bind_assoc]
        congr 1
        funext e
        generalize (cutCluster argv.head? a.tail).2 = e'
        have hused : ∀ b rest, argv = b::rest → parseArgs S execute true rest =
            runItems S execute (cutArgs true rest) >>= fun _ => pure () :=
          fun b rest hargv => ih _ (by rw [hargv] at hlen; simp at hlen; omega) true rest rfl
        cases e with
        | left => rfl
        | next | used =>
          cases e' with
          | left => rfl
          | next => exact ih _ hlen true argv rfl
          | used =>
            cases argv with
            | nil => rfl
            | cons b rest => exact hused b rest rfl
      · rw [ih _ hlen parsing argv rfl,runItems,prog_bind_assoc]
        have hitem : runItem S execute (parameterItem a) = parameter a >>= fun _ => pure .next := by
          unfold parameterItem
          split_ifs <;> rfl
        rw [hitem,prog_bind_assoc]
        rfl

end
end Presto

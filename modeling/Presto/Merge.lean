import Mathlib.Data.List.Basic
import Mathlib.Order.Filter.AtTopBot.Basic
import Mathlib.Tactic

/-! `make.util.merge_tables`, which merges nested tables of flags, and what it is for: arrays are
joined and simple values overwritten. -/
namespace Presto

/-- A Lua value made of tables: a table has the values at 1, 2, ... and, in the order of `pairs`,
those at other keys. -/
inductive Data (κ α : Type)
  | simple (a : α)
  | table (items : List (Data κ α)) (fields : List (κ × Data κ α))

namespace Data
variable {κ α : Type} [DecidableEq κ]

/-- `t[k]` -/
def field (fields : List (κ × Data κ α)) (k : κ) : Option (Data κ α) :=
  (fields.find? fun p => p.1 = k).map Prod.snd

/-- `t[k] = v` -/
def setField : List (κ × Data κ α) → κ → Data κ α → List (κ × Data κ α)
  | [],k,v => [(k,v)]
  | p::fields,k,v => if p.1 = k then (k,v)::fields else p::setField fields k v

/-- The values that `ipairs` goes through; it raises for what is no table. -/
def ipairs : Data κ α → Option (List (Data κ α))
  | .simple _ => none
  | .table items _ => some items

variable (truthy : α → Bool)

/-- Whether `if v` goes to the first branch. -/
def Truthy : Data κ α → Bool
  | .simple a => truthy a
  | .table _ _ => true

/-- The new value of `t[k]`, where `merge` is `make.util.merge_tables` itself. -/
def mergeValue (merge : List (Data κ α) → Option (Data κ α)) (old : Option (Data κ α))
    (v : Data κ α) : Option (Data κ α) :=
  match old with
  | none => merge [v]
  | some o => if o.Truthy truthy then merge [o,v] else merge [v]

/-- The keys 1, 2, ... of `for k,v in pairs(srctable)`. -/
def mergeItems (merge : List (Data κ α) → Option (Data κ α)) :
    List (Data κ α) → List (Data κ α) → Option (List (Data κ α))
  | items,[] => some items
  | [],v::vs => do
    let r ← mergeValue truthy merge none v
    let rs ← mergeItems merge [] vs
    some (r::rs)
  | o::items,v::vs => do
    let r ← mergeValue truthy merge (some o) v
    let rs ← mergeItems merge items vs
    some (r::rs)

/-- The other keys. -/
def mergeFields (merge : List (Data κ α) → Option (Data κ α)) :
    List (κ × Data κ α) → List (κ × Data κ α) → Option (List (κ × Data κ α))
  | fields,[] => some fields
  | fields,(k,v)::src => do
    let r ← mergeValue truthy merge (field fields k) v
    mergeFields merge (setField fields k r) src

/-- `for k,v in pairs(srctable) do ... end`; it raises for what is no table. -/
def mergeInto (merge : List (Data κ α) → Option (Data κ α)) (t : Data κ α) :
    Data κ α → Option (Data κ α)
  | .simple _ => none
  | .table vs src =>
    match t with
    | .simple _ => none
    | .table items fields => do
      let items ← mergeItems truthy merge items vs
      let fields ← mergeFields truthy merge fields src
      some (.table items fields)

/-- `make.util.merge_tables(...)` with room for some calls on the stack; no result if it raises, or
if there is no argument. -/
def mergeTables : ℕ → List (Data κ α) → Option (Data κ α)
  | 0,_ => none
  | n+1,args =>
    match args with
    | [] => none
    | .simple _::_ => args.getLast?
    | .table (_::_) _::_ => do
      let l ← args.mapM ipairs
      some (.table l.flatten [])
    | .table [] _::_ => args.foldlM (mergeInto truthy (mergeTables n)) (.table [] [])

end Data

/-- What is found at each path of keys: a simple value, an array or a dictionary. -/
inductive Shape (κ : Type)
  | value
  | array
  | dict (at' : κ → Shape κ)

section
variable {κ α : Type} [DecidableEq κ]
open Data

/-- The values in an array: tables may be arrays or dictionaries, not both. -/
inductive Data.Plain : Data κ α → Prop
  | simple (a : α) : Data.Plain (.simple a)
  | array (items : List (Data κ α)) (h : ∀ v ∈ items, Data.Plain v) : Data.Plain (.table items [])
  | dict (fields : List (κ × Data κ α)) (hk : (fields.map Prod.fst).Nodup)
      (h : ∀ p ∈ fields, Data.Plain p.2) : Data.Plain (.table [] fields)

inductive Shaped : Shape κ → Data κ α → Prop
  | value (a : α) : Shaped .value (.simple a)
  | array (items : List (Data κ α)) (h : ∀ v ∈ items, v.Plain) : Shaped .array (.table items [])
  | dict (at' : κ → Shape κ) (fields : List (κ × Data κ α)) (hk : (fields.map Prod.fst).Nodup)
      (h : ∀ p ∈ fields, Shaped (at' p.1) p.2) : Shaped (.dict at') (.table [] fields)

def Data.items : Data κ α → List (Data κ α)
  | .simple _ => []
  | .table items _ => items

/-- The value at a key, if there is one. -/
def Data.at? (k : κ) : Data κ α → Option (Data κ α)
  | .simple _ => none
  | .table _ fields => field fields k

/-- A value is what the tables of a list make together: the last simple value, all items of the
arrays one after the other, and at each key of a dictionary what the values at that key make. -/
def Joined : Shape κ → List (Data κ α) → Data κ α → Prop
  | .value,l,r => l.getLast? = some r
  | .array,l,r => r = .table (l.flatMap Data.items) []
  | .dict at',l,r => (∃ fields, r = .table [] fields) ∧ ∀ k, (r.at? k).elim
      (l.filterMap (Data.at? k) = [])
      fun v => l.filterMap (Data.at? k) ≠ [] ∧ Joined (at' k) (l.filterMap (Data.at? k)) v

/-- `merge_tables` makes what the arguments make together, and it is the same as merging two at a
time from the left. -/
def MergesAll (truthy : α → Bool) (shape : Shape κ) (a : Data κ α) (args : List (Data κ α)) : Prop :=
  ∃ r, Joined shape (a::args) r ∧
    (∀ᶠ n in Filter.atTop, mergeTables truthy n (a::args) = some r) ∧
    ∀ᶠ n in Filter.atTop, args.foldlM (fun t b => mergeTables truthy n [t,b]) a = some r

end
end Presto

import Savoire.Base.SplitQuery
import Savoire.Library.KeyedMap

/-! A filter cut in two, the part without formulas and the rest. The engine and the base plugin cut with
the same words, each with its own idea of a formula. -/
namespace Savoire.PluginApi
open Query InMemory

section Reader
variable (host : EngineHost)

/-- The formulas of a query, compiled; one that fails on a document gives null. -/
abbrev FieldReader := KeyedMap Text (Text → Record → PropertyValue)

def FieldReader.value (reader : FieldReader) (d : EvalDoc) : Field → Option PropertyValue
  | .stored f => fieldValue host.toHost d f
  | .formula source => (reader.get source).map fun evaluate => evaluate d.title d.props

def FieldReader.matchesDoc (reader : FieldReader) (d : EvalDoc) (f : InMemory.QueryFilter) : Bool :=
  f.holds fun l => matchesValue host.toHost l.op l.value (reader.value host d l.field)

variable {host}

theorem FieldReader.matchesDoc_eq {reader : FieldReader} {f : InMemory.QueryFilter}
    (h : ∀ l ∈ f.leaves, ∀ source, l.field = .formula source → reader.get source = (host.compile source).toOption)
    (d : EvalDoc) : reader.matchesDoc host d f = matchesFilter host d f := by
  refine Condition.holds_congr f fun l hl => ?_
  cases hfield : l.field with
  | stored f => rfl
  | formula source =>
    rw [FieldReader.value, h l hl source hfield, fieldOf]
    cases host.compile source <;> rfl

end Reader

def isFormulaField : Field → Bool
  | .formula _ => true
  | .stored _ => false

def filterUsesFormula (f : InMemory.QueryFilter) : Bool := f.mentions fun l => isFormulaField l.field

structure FormulaSplit where
  plain : Option InMemory.QueryFilter
  formula : Option InMemory.QueryFilter

def splitFormulaFilter : Option InMemory.QueryFilter → FormulaSplit
  | none => ⟨none, none⟩
  | some f => ⟨(f.cut fun l => isFormulaField l.field).1, (f.cut fun l => isFormulaField l.field).2⟩

theorem all_splitFormulaFilter (truth : InMemory.FilterLeaf → Bool) (w : Option InMemory.QueryFilter) :
    w.all (·.holds truth) =
      ((splitFormulaFilter w).plain.all (·.holds truth) && (splitFormulaFilter w).formula.all (·.holds truth)) := by
  cases w with
  | none => rfl
  | some f => exact Condition.all_cut _ truth f

theorem plain_without_formula (w : Option InMemory.QueryFilter) :
    ∀ f ∈ (splitFormulaFilter w).plain, filterUsesFormula f = false := by
  intro f hf
  cases w with
  | none => cases hf
  | some w =>
    rw [filterUsesFormula, Condition.mentions_eq_any_leaves, List.any_eq_false]
    intro l hl
    simpa using Condition.cut_without _ hf l hl

end Savoire.PluginApi

namespace Savoire.Base
open Query InMemory PluginApi

theorem usesFormula_eq (f : InMemory.QueryFilter) : usesFormula f = f.mentions fun l => isFormulaField l.field :=
  (Condition.mentions_eq_any_leaves _ f).symm

theorem join_eq (fs : List InMemory.QueryFilter) : join fs = Condition.conj fs := by
  match fs with
  | [] => rfl
  | [f] => rfl
  | f :: f' :: fs => rfl

theorem splitWhere_some (f : InMemory.QueryFilter) :
    splitWhere (some f) = ⟨(f.cut fun l => isFormulaField l.field).1, (f.cut fun l => isFormulaField l.field).2⟩ := by
  have huses : usesFormula = Condition.mentions fun l => isFormulaField l.field := funext usesFormula_eq
  unfold splitWhere Condition.cut
  dsimp only
  rw [huses]
  split
  · rfl
  · cases f with
    | and fs =>
      dsimp only
      rw [join_eq, join_eq]
    | _ => rfl

theorem all_splitWhere (truth : InMemory.FilterLeaf → Bool) (w : Option InMemory.QueryFilter) :
    w.all (·.holds truth) = ((splitWhere w).engine.all (·.holds truth) && (splitWhere w).client.all (·.holds truth)) := by
  cases w with
  | none => rfl
  | some f =>
    rw [splitWhere_some]
    exact Condition.all_cut _ truth f

theorem engine_without_formula (w : Option InMemory.QueryFilter) : ∀ f ∈ (splitWhere w).engine, usesFormula f = false := by
  intro f hf
  cases w with
  | none => cases hf
  | some w =>
    rw [splitWhere_some] at hf
    rw [usesFormula, List.any_eq_false]
    intro l hl
    simpa using Condition.cut_without _ hf l hl

/-- On every document, and on every row of a base, both parts ask together what the filter does. The part
of SQL has no formula at any depth, and the part of the engine no formula column. -/
theorem splits_keep_meaning (engine : EngineHost) (host : ClientHost) (reader : FieldReader) (d : EvalDoc)
    (formula : FormulaLookup host.toEngineHost) (row : QueryRow) (w : Option InMemory.QueryFilter) :
    (w.all (reader.matchesDoc engine d) =
        ((splitFormulaFilter w).plain.all (reader.matchesDoc engine d) &&
          (splitFormulaFilter w).formula.all (reader.matchesDoc engine d)) ∧
      ∀ f ∈ (splitFormulaFilter w).plain, ∀ l ∈ f.leaves, PluginApi.isFormulaField l.field = false) ∧
    w.all (reader.matchesDoc engine d) =
        ((splitWhere w).engine.all (reader.matchesDoc engine d) &&
          (splitWhere w).client.all (reader.matchesDoc engine d)) ∧
      w.all (matchRow host formula row) =
        ((splitWhere w).engine.all (matchRow host formula row) && (splitWhere w).client.all (matchRow host formula row)) ∧
      ∀ f ∈ (splitWhere w).engine, ∀ l ∈ f.leaves, isFormulaField l.field = false := by
  refine ⟨⟨all_splitFormulaFilter _ w, ?_⟩, all_splitWhere _ w, all_splitWhere _ w, ?_⟩
  · intro f hf l hl
    have hfree := plain_without_formula w f hf
    rw [filterUsesFormula, Condition.mentions_eq_any_leaves, List.any_eq_false] at hfree
    simpa using hfree l hl
  · intro f hf l hl
    exact not_uses (engine_without_formula w f hf) hl

end Savoire.Base

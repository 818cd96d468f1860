import ResponseModels.Ascending
import ResponseModels.NameSet
import ResponseModels.TypeExpr
import ResponseModels.Text.Printable
import ResponseModels.Text.Quoted
import ResponseModels.Text.Block
import ResponseModels.Value
import ResponseModels.Error
import ResponseModels.Config
import ResponseModels.Directive
import ResponseModels.Condition.Basic
import ResponseModels.Condition.Simplify
import ResponseModels.Condition.Directives
import ResponseModels.Schema
import ResponseModels.Shape
import ResponseModels.Document
import ResponseModels.Document.Printer
import ResponseModels.Field
import ResponseModels.Collect.Declaration
import ResponseModels.Collect.Weight
import ResponseModels.Collect.Survey
import ResponseModels.Collect.Expand
import ResponseModels.Model.Basic
import ResponseModels.Model.Naming
import ResponseModels.Model.Printer
import ResponseModels.Model.Plan
import ResponseModels.Model.Build
import ResponseModels.Closure
import ResponseModels.FragmentLibrary
import ResponseModels.UsedTypes
import ResponseModels.Representation
import ResponseModels.Build
import ResponseModels.Proofs.Termination
import ResponseModels.Proofs.Condition.Meaning
import ResponseModels.Proofs.Condition.Directives
import ResponseModels.Proofs.Execution
import ResponseModels.Proofs.Collect.Merge
import ResponseModels.Proofs.Collect.Scope
import ResponseModels.Proofs.Collect.Survey
import ResponseModels.Proofs.Collect.Coverage
import ResponseModels.Proofs.Collect.FieldSurvey
import ResponseModels.Proofs.Shape
import ResponseModels.Proofs.Collect.Expand
import ResponseModels.Proofs.Collect.Agreement
import ResponseModels.Proofs.Sample
import ResponseModels.Proofs.Build
import ResponseModels.Proofs.Collect.Nested
import ResponseModels.Proofs.Collect.ShapeTree
import ResponseModels.Proofs.Model.Plan
import ResponseModels.Proofs.Model.Naming
import ResponseModels.Proofs.Model.Group
import ResponseModels.Proofs.Model.Partition
import ResponseModels.Proofs.Library
import ResponseModels.Proofs.Model.Tree
import ResponseModels.Proofs.Model.Address
import ResponseModels.Proofs.Model.Inheritance
import ResponseModels.Proofs.Model.Downcast
import ResponseModels.Proofs.Model.Spot
import ResponseModels.Proofs.Model.Provision
import ResponseModels.Proofs.Collect.Carried
import ResponseModels.Proofs.Failure
import ResponseModels.Proofs.Model.Completion
import ResponseModels.Proofs.Reports
import ResponseModels.Proofs.Closure
import ResponseModels.Proofs.Assembly
import ResponseModels.Proofs.Condition.Canonical
import ResponseModels.Proofs.Collect.MergeExact
import ResponseModels.Proofs.Collect.Ways
import ResponseModels.Proofs.Rearranged
import ResponseModels.Proofs.Collect.Order
import ResponseModels.Proofs.SeenAlike
import ResponseModels.Proofs.Inlining
import ResponseModels.Proofs.Cycles
import ResponseModels.Proofs.Sources
import ResponseModels.Proofs.Rebuild
import ResponseModels.Proofs.Collect.Mirror
import ResponseModels.Proofs.Collect.Walk
import ResponseModels.Proofs.Collect.Transparency
import ResponseModels.Proofs.DefinitionOrder
import ResponseModels.Proofs.Retracing
import ResponseModels.Proofs.Collect.Near
import ResponseModels.Proofs.Collect.Echo
import ResponseModels.Proofs.Collect.Repetition
import ResponseModels.Proofs.Repetition
import ResponseModels.Proofs.Condition.Alternatives
import ResponseModels.Proofs.Collect.Declared
import ResponseModels.Proofs.FieldTree
import ResponseModels.Proofs.Conditions
import ResponseModels.Proofs.UsedTypes
import ResponseModels.Proofs.LockStep
import ResponseModels.Proofs.Collect.AddedTypename
import ResponseModels.Proofs.Options
import ResponseModels.Proofs.Condition.NormalForm
import ResponseModels.Proofs.Condition.Grouping
import ResponseModels.Proofs.Condition.Duality
import ResponseModels.Proofs.Condition.Offences
import ResponseModels.Proofs.Collect.Merging
import ResponseModels.Proofs.Narrowing
import ResponseModels.Proofs.Model.ObjectTypes
import ResponseModels.Proofs.Typename
import ResponseModels.Proofs.Model.Allocation
import ResponseModels.Proofs.Model.Siblings
import ResponseModels.Proofs.ArgumentOrder
import ResponseModels.Proofs.PossibleTypes
import ResponseModels.Proofs.Model.BestMatch
import ResponseModels.Proofs.UsedFragments

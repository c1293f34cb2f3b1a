import QueryCompiler.Decimal.Layout
import QueryCompiler.Condition.Match
import QueryCompiler.Settings.Document
import QueryCompiler.JoinTree.Selection
import QueryCompiler.JoinTree.Scope
import QueryCompiler.Compile.Request
import QueryCompiler.Session
import QueryCompiler.Proofs.Sql.Filling
import QueryCompiler.Proofs.Boolean.Bracketing
import QueryCompiler.Proofs.Boolean.Conditions
import QueryCompiler.Proofs.Hierarchy.RowFilter
import QueryCompiler.Proofs.JoinTree.Growth
import QueryCompiler.Proofs.JoinTree.Reach
import QueryCompiler.Proofs.JoinTree.Demand
import QueryCompiler.Proofs.Access.Grounded
import QueryCompiler.Proofs.Access.Resolve
import QueryCompiler.Proofs.Access.AllowList
import QueryCompiler.Proofs.Parameters.Marks
import QueryCompiler.Proofs.Parameters.Paths
import QueryCompiler.Proofs.Parameters.Plain
import QueryCompiler.Proofs.Parameters.Texts
import QueryCompiler.Proofs.Parameters.Trees
import QueryCompiler.Proofs.Parameters.Resolve
import QueryCompiler.Proofs.Parameters.Clauses
import QueryCompiler.Proofs.Parameters.Bag
import QueryCompiler.Proofs.Parameters.Commands
import QueryCompiler.Proofs.Parameters.Layout
import QueryCompiler.Proofs.Parameters.Selected
import QueryCompiler.Proofs.Parameters.Exact
import QueryCompiler.Proofs.JoinTree.Forest
import QueryCompiler.Proofs.Enforcement.Rendering
import QueryCompiler.Proofs.Enforcement.Tables
import QueryCompiler.Proofs.Boolean.Sentence
import QueryCompiler.Proofs.Boolean.Spelling
import QueryCompiler.Proofs.Enforcement.Escape
import QueryCompiler.Proofs.Selection.Tests
import QueryCompiler.Proofs.Selection.Rows
import QueryCompiler.Proofs.Selection.Laws
import QueryCompiler.Proofs.JoinTree.Stable
import QueryCompiler.Proofs.Compile.Unjoined
import QueryCompiler.Proofs.Scoping.Statements
import QueryCompiler.Proofs.Hierarchy.Projection
import QueryCompiler.Proofs.Enforcement.Unmatched
import QueryCompiler.Proofs.Access.SelectLists
import QueryCompiler.Proofs.Compile.SameRows
import QueryCompiler.Proofs.Compile.Endings
import QueryCompiler.Proofs.Boolean.Silent
import QueryCompiler.Proofs.JoinTree.Idle
import QueryCompiler.Proofs.JoinTree.Gains
import QueryCompiler.Proofs.Compile.Dropped
import QueryCompiler.Proofs.Compile.Grouping
import QueryCompiler.Proofs.Tally
import QueryCompiler.Proofs.Session
import QueryCompiler.Proofs.Sql.Fragments
import QueryCompiler.Proofs.Build.Reports
import QueryCompiler.Proofs.Compile.Events
import QueryCompiler.Proofs.Enforcement.Fields
import QueryCompiler.Proofs.Selection.Absence
import QueryCompiler.Proofs.Parameters.Positional
import QueryCompiler.Proofs.Sql.Substitution
import QueryCompiler.Proofs.Parameters.Apart
import QueryCompiler.Proofs.Sql.Placeholders
import QueryCompiler.Proofs.Compile.Resolved
import QueryCompiler.Proofs.Parameters.Templates
import QueryCompiler.Proofs.Parameters.Served
import QueryCompiler.Proofs.Parameters.Skeleton
import QueryCompiler.Proofs.Parameters.Pruned
import QueryCompiler.Proofs.Compile.Pages
import QueryCompiler.Proofs.Compile.RowCaps
import QueryCompiler.Proofs.Compile.Deletions
import QueryCompiler.Proofs.Compile.ExplicitJoins
import QueryCompiler.Proofs.Compile.JoinSections
import QueryCompiler.Proofs.Compile.ResultNames
import QueryCompiler.Proofs.Access.KeyColumns
import QueryCompiler.Proofs.Compile.SelectSets
import QueryCompiler.Proofs.Selection.RowForms
import QueryCompiler.Proofs.Selection.ShortLists
import QueryCompiler.Proofs.Hierarchy.Ties
import QueryCompiler.Proofs.Value.Worth
import QueryCompiler.Proofs.Value.Comparison
import QueryCompiler.Proofs.Boolean.Balance
import QueryCompiler.Proofs.Sql.Identifiers

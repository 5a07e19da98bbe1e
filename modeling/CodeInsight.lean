import CodeInsight.Analysis
import CodeInsight.Autoload.Composer
import CodeInsight.Autoload.Root
import CodeInsight.Autoload.Table
import CodeInsight.ClassModel
import CodeInsight.ClassModel.Extract
import CodeInsight.ClassName
import CodeInsight.Command
import CodeInsight.Completion
import CodeInsight.Config
import CodeInsight.Digest
import CodeInsight.Disk
import CodeInsight.Edit
import CodeInsight.Failure
import CodeInsight.Generation
import CodeInsight.Generation.Property
import CodeInsight.Generation.Skeleton
import CodeInsight.Generation.Stub
import CodeInsight.Grammar.Lexeme
import CodeInsight.Grammar.Lexer
import CodeInsight.Grammar.Parse
import CodeInsight.Grammar.Parser.Basic
import CodeInsight.Grammar.Parser.Declaration
import CodeInsight.Grammar.Parser.Expression
import CodeInsight.Grammar.Parser.Statement
import CodeInsight.Grammar.Template
import CodeInsight.Grammar.Token
import CodeInsight.Grammar.Tree
import CodeInsight.Hierarchy
import CodeInsight.Json.Basic
import CodeInsight.Json.Double
import CodeInsight.Json.Parse
import CodeInsight.Json.Render
import CodeInsight.Main
import CodeInsight.Move
import CodeInsight.Move.Memory
import CodeInsight.Order
import CodeInsight.Path
import CodeInsight.Receiver.Chain
import CodeInsight.Receiver.Repair
import CodeInsight.Receiver.Site
import CodeInsight.Rename
import CodeInsight.Report
import CodeInsight.Resolution
import CodeInsight.Scope.Build
import CodeInsight.Scope.Forest
import CodeInsight.Scope.Receivers
import CodeInsight.Session
import CodeInsight.Span
import CodeInsight.Text.Alphanumeric
import CodeInsight.Text.Basic
import CodeInsight.Text.Blank
import CodeInsight.Text.Encoding
import CodeInsight.Text.Lowercase
import CodeInsight.Text.Range
import CodeInsight.Text.Word
import CodeInsight.Toml.Document
import CodeInsight.Toml.Parse
import CodeInsight.Toml.Scalar
import CodeInsight.TypeHint
import CodeInsight.Workspace
import CodeInsight.Proofs.AutoloadTable
import CodeInsight.Proofs.AutoloadRoundTrip
import CodeInsight.Proofs.ForestHistory
import CodeInsight.Proofs.ForestSearch
import CodeInsight.Proofs.ForestShape
import CodeInsight.Proofs.KeptAnalyses
import CodeInsight.Proofs.MoveSafety
import CodeInsight.Proofs.ParallelWalks
import CodeInsight.Proofs.ProgramOutline
import CodeInsight.Proofs.ScopeLayout
import CodeInsight.Proofs.ResolutionOutline
import CodeInsight.Proofs.KeptModels
import CodeInsight.Proofs.SessionQueries
import CodeInsight.Proofs.SessionRuns
import CodeInsight.Proofs.RequestOrder
import CodeInsight.Proofs.WalkRecord
import CodeInsight.Proofs.SeenBindings
import CodeInsight.Proofs.OpenMethods
import CodeInsight.Proofs.SavedFiles
import CodeInsight.Proofs.MovedTrees
import CodeInsight.Proofs.LocalReading
import CodeInsight.Proofs.LexemeBorders
import CodeInsight.Proofs.TokenBorders
import CodeInsight.Proofs.WordTokens
import CodeInsight.Proofs.ShiftedTokens
import CodeInsight.Proofs.TokenOrder
import CodeInsight.Proofs.RenamedTexts
import CodeInsight.Proofs.RenamedTokens
import CodeInsight.Proofs.DeclaredNames
import CodeInsight.Proofs.DeclaredStatements
import CodeInsight.Proofs.RenamedPrograms
import CodeInsight.Proofs.ClassSites
import CodeInsight.Proofs.RenamedClasses
import CodeInsight.Proofs.AutoloadConflicts
import CodeInsight.Proofs.ChainTrees
import CodeInsight.Proofs.MemberTypes
import CodeInsight.Proofs.ReloadedTables
import CodeInsight.Proofs.ClassTours
import CodeInsight.Proofs.ReachedClasses
import CodeInsight.Proofs.QualifiedReceivers
import CodeInsight.Proofs.ReceiverScan
import CodeInsight.Proofs.ReceiverTexts
import CodeInsight.Proofs.Ancestors
import CodeInsight.Proofs.FirstOfEach
import CodeInsight.Proofs.MemberPrecedence
import CodeInsight.Proofs.MissingMembers
import CodeInsight.Proofs.SimultaneousEdits
import CodeInsight.Proofs.TrimmedTexts
import CodeInsight.Proofs.NameTexts
import CodeInsight.Proofs.TypeReadings
import CodeInsight.Proofs.QualifiedTypes
import CodeInsight.Proofs.CopiedTypes
import CodeInsight.Proofs.FoundSites
import CodeInsight.Proofs.ByteScans
import CodeInsight.Proofs.RepairedTexts
import CodeInsight.Proofs.PrintedChains
import CodeInsight.Proofs.OpenedScopes
import CodeInsight.Proofs.LastDeclarations
import CodeInsight.Proofs.AssignedProperties
import CodeInsight.Proofs.TokenGaps
import CodeInsight.Proofs.DeclarationTokens
import CodeInsight.Proofs.NamespaceForms
import CodeInsight.Proofs.NamespaceExtents
import CodeInsight.Proofs.NamespaceLookup
import CodeInsight.Proofs.LongestNamespaces
import CodeInsight.Proofs.MergedSuggestions
import CodeInsight.Proofs.NormalRoots
import CodeInsight.Proofs.ClassSkeletons

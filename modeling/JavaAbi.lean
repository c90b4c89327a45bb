import JavaAbi.Main
import JavaAbi.Model.Client
import JavaAbi.Proofs.NameTables
import JavaAbi.Proofs.ParsedTypes
import JavaAbi.Proofs.ParsedTrees
import JavaAbi.Proofs.Courses
import JavaAbi.Proofs.IndexedBatch
import JavaAbi.Proofs.Work
import JavaAbi.Proofs.Caches
import JavaAbi.Proofs.Outcomes
import JavaAbi.Proofs.Elements
import JavaAbi.Proofs.Construction
import JavaAbi.Proofs.CollectedElements
import JavaAbi.Proofs.Inquiries
import JavaAbi.Proofs.Reference
import JavaAbi.Proofs.Symbols
import JavaAbi.Proofs.Following
import JavaAbi.Proofs.Resolution
import JavaAbi.Proofs.WrittenTypes
import JavaAbi.Proofs.SupertypeLists
import JavaAbi.Proofs.InnerTypes
import JavaAbi.Proofs.Asking
import JavaAbi.Proofs.OwnTypes
import JavaAbi.Proofs.ElementAnswers
import JavaAbi.Proofs.Lookups
import JavaAbi.Proofs.Clients
import JavaAbi.Proofs.Identity
import JavaAbi.Proofs.Extraction
import JavaAbi.Proofs.Honesty
import JavaAbi.Proofs.History
import JavaAbi.Proofs.LookupOrder
import JavaAbi.Proofs.SimpleNames
import JavaAbi.Proofs.Termination
import JavaAbi.Proofs.Lexemes
import JavaAbi.Proofs.FirstLexemes
import JavaAbi.Proofs.ParserBounds
import JavaAbi.Proofs.SafeParsing
import JavaAbi.Proofs.FieldPlaces
import JavaAbi.Proofs.Printing
import JavaAbi.Proofs.PrintedTokens
import JavaAbi.Proofs.Reading
import JavaAbi.Proofs.ReadTypes
import JavaAbi.Proofs.Initializers
import JavaAbi.Proofs.ReadFields
import JavaAbi.Proofs.ReadDeclarations
import JavaAbi.Proofs.RoundTrip
import JavaAbi.Proofs.InitializedFields
import JavaAbi.Proofs.PairedRuns
import JavaAbi.Proofs.PairedTypes
import JavaAbi.Proofs.PairedDeclarations
import JavaAbi.Proofs.PairedUnits
import JavaAbi.Proofs.SkippedGroups
import JavaAbi.Proofs.Formatting
import JavaAbi.Proofs.TwinWorlds
import JavaAbi.Proofs.TwinSessions
import JavaAbi.Proofs.TwinRuns
import JavaAbi.Proofs.TwinResolution
import JavaAbi.Proofs.TwinAnswers
import JavaAbi.Proofs.TwinContents
import JavaAbi.Proofs.TwinIndexes
import JavaAbi.Proofs.TwinBatches
import JavaAbi.Proofs.TwinStarts
import JavaAbi.Proofs.TwinExtraction
import JavaAbi.Proofs.TwinClients
import JavaAbi.Proofs.PrivateFields
import JavaAbi.Proofs.CacheRuns
import JavaAbi.Proofs.OnceCells
import JavaAbi.Proofs.OtherProviders
import JavaAbi.Proofs.OtherAnswers
import JavaAbi.Proofs.NamesInOrder
import JavaAbi.Proofs.Positions
import JavaAbi.Proofs.IndexOrder
import JavaAbi.Proofs.RecordedFiles
import JavaAbi.Proofs.FaithfulIndex
import JavaAbi.Proofs.VisibleDeclarations
import JavaAbi.Proofs.StubContents
import JavaAbi.Proofs.ExtractedStubs
import JavaAbi.Proofs.WellFormedTrees
import JavaAbi.Proofs.Enclosure
import JavaAbi.Proofs.JsonText
import JavaAbi.Proofs.SymbolFiles
import JavaAbi.Proofs.LexedText
import JavaAbi.Proofs.ArgumentTexts
import JavaAbi.Proofs.RenderedTypes
import JavaAbi.Proofs.ReportedErrors
import JavaAbi.Proofs.ExtractedReports
import JavaAbi.Proofs.ListedInterfaces
import JavaAbi.Proofs.FieldReports
import JavaAbi.Proofs.DistinctMembers
import JavaAbi.Proofs.RaisedErrors
import JavaAbi.Proofs.QualifiedNames
import JavaAbi.Proofs.ReportedSupertypes
import JavaAbi.Proofs.LexedLines
import JavaAbi.Proofs.Recovery
import JavaAbi.Proofs.ClientAnswers
import JavaAbi.Proofs.PlacedErrors
import JavaAbi.Proofs.RootSuperclass
import JavaAbi.Proofs.SelfTypes
import JavaAbi.Proofs.NestedSpans
import JavaAbi.Proofs.NestedTypes
import JavaAbi.Proofs.NestedTrees
import JavaAbi.Proofs.ForeignTypes
import JavaAbi.Proofs.CaretRows
import JavaAbi.Proofs.BreadthFirst
import JavaAbi.Proofs.InheritedMembers
import JavaAbi.Proofs.CarriedTrees
import JavaAbi.Proofs.JoinedRuns
import JavaAbi.Proofs.JoinedTypes
import JavaAbi.Proofs.JoinedDeclarations
import JavaAbi.Proofs.JoinedFiles
import JavaAbi.Proofs.JoinedTexts
import JavaAbi.Proofs.Bisection
import JavaAbi.Proofs.LineTables
import JavaAbi.Proofs.DenseNames
import JavaAbi.Proofs.NameRuns
import JavaAbi.Proofs.EnclosingNames

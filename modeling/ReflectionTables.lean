import ReflectionTables.Main
import ReflectionTables.Proofs.TextCuts
import ReflectionTables.Proofs.Readings
import ReflectionTables.Proofs.CleanSpans
import ReflectionTables.Proofs.ParserContracts
import ReflectionTables.Proofs.ReadingSteps
import ReflectionTables.Proofs.CarefulSkipping
import ReflectionTables.Proofs.CarefulMembers
import ReflectionTables.Proofs.CarefulBodies
import ReflectionTables.Proofs.CarefulItems
import ReflectionTables.Proofs.StreamReadings
import ReflectionTables.Proofs.OpenScopes
import ReflectionTables.Proofs.AlikeParsers
import ReflectionTables.Proofs.AlikeSkipping
import ReflectionTables.Proofs.AlikeMembers
import ReflectionTables.Proofs.AlikeBodies
import ReflectionTables.Proofs.AlikeItems
import ReflectionTables.Proofs.PairedReadings
import ReflectionTables.Proofs.PairedFiles
import ReflectionTables.Proofs.LayoutIndependence
import ReflectionTables.Proofs.SearchWindows
import ReflectionTables.Proofs.ScalarSearches
import ReflectionTables.Proofs.JoinedScans
import ReflectionTables.Proofs.JoinedFiles
import ReflectionTables.Proofs.ParserResults
import ReflectionTables.Proofs.BalancedGroups
import ReflectionTables.Proofs.DeclarationForms
import ReflectionTables.Proofs.FreeDeclarations
import ReflectionTables.Proofs.WholeCharacters
import ReflectionTables.Proofs.AnyAnswers
import ReflectionTables.Proofs.QuietParsers
import ReflectionTables.Proofs.SparingParsers
import ReflectionTables.Proofs.GuardedParsers
import ReflectionTables.Proofs.SafeCuts
import ReflectionTables.Proofs.BodyForests
import ReflectionTables.Proofs.CollapsedTexts
import ReflectionTables.Proofs.CharacterScans
import ReflectionTables.Proofs.ThinnedLexemes
import ReflectionTables.Proofs.RescannedSpans
import ReflectionTables.Proofs.CursorAnswers
import ReflectionTables.Proofs.AnnouncedDeclarations
import ReflectionTables.Proofs.MemberForms
import ReflectionTables.Proofs.MemberTables
import ReflectionTables.Proofs.LeadingParsers
import ReflectionTables.Proofs.RecordHeads
import ReflectionTables.Proofs.HeaderRecords
import ReflectionTables.Proofs.ScannedGaps
import ReflectionTables.Proofs.BracePairs
import ReflectionTables.Proofs.RoleFindings
import ReflectionTables.Proofs.CleanFailures
import ReflectionTables.Proofs.AggregateTexts
import ReflectionTables.Proofs.TreePlaces
import ReflectionTables.Proofs.TreeEdits
import ReflectionTables.Proofs.ArtifactPaths
import ReflectionTables.Proofs.ChosenFiles
import ReflectionTables.Proofs.OutputDirectory
import ReflectionTables.Proofs.WrittenTrees
import ReflectionTables.Proofs.RunEffects
import ReflectionTables.Proofs.FinishedRuns
import ReflectionTables.Proofs.RepeatedRuns
import ReflectionTables.Proofs.OneLineTexts
import ReflectionTables.Proofs.OneLineNames
import ReflectionTables.Proofs.AggregateLines
import ReflectionTables.Proofs.ConsumedTokens
import ReflectionTables.Proofs.VisitedItems
import ReflectionTables.Proofs.MemberTemplates
import ReflectionTables.Proofs.StaticMembers
import ReflectionTables.Proofs.FunctionDefinitions
import ReflectionTables.Proofs.EnclosedRecords
import ReflectionTables.Proofs.PlacedRecords
import ReflectionTables.Proofs.InitializerEnds
import ReflectionTables.Proofs.CommaPieces
import ReflectionTables.Proofs.ParameterArguments
import ReflectionTables.Proofs.SpacedTokens
import ReflectionTables.Proofs.LastingFailures
import ReflectionTables.Proofs.StreamPlaces
import ReflectionTables.Proofs.EnumeratorLists
import ReflectionTables.Proofs.PieceScans
import ReflectionTables.Proofs.CapturedLists
import ReflectionTables.Proofs.RunRelations
import ReflectionTables.Proofs.OpenedBodies
import ReflectionTables.Proofs.BodyFindings
import ReflectionTables.Proofs.PlacedBodies
import ReflectionTables.Proofs.BodyAccounts
import ReflectionTables.Proofs.DependentBodies
import ReflectionTables.Proofs.TokenCredits
import ReflectionTables.Proofs.SettledParsers
import ReflectionTables.Proofs.ProgressingRounds
import ReflectionTables.Proofs.ReadableHeaders
import ReflectionTables.Proofs.MethodTails
import ReflectionTables.Proofs.MatchingBrackets
import ReflectionTables.Proofs.CleanLines
import ReflectionTables.Proofs.LineColumns
import ReflectionTables.Proofs.ErrorPlaces

import PgAdmin.AclText
import PgAdmin.AgentSchedule
import PgAdmin.AgentScheduleSaved
import PgAdmin.AgentScheduleUpdates
import PgAdmin.AlterDefaultPrivileges
import PgAdmin.ArrayText
import PgAdmin.CacheLinePool
import PgAdmin.CellCodec
import PgAdmin.CheckTreeView
import PgAdmin.ColumnTypes
import PgAdmin.ColumnsLayout
import PgAdmin.ColumnsWindow
import PgAdmin.CommaSeparatedList
import PgAdmin.CommaSeparatedPieces
import PgAdmin.CommandLineOption
import PgAdmin.CompositeAttributes
import PgAdmin.CompositeDialog
import PgAdmin.CompositeMembers
import PgAdmin.CompositeRows
import PgAdmin.CompositeTurns
import PgAdmin.ConfigReading
import PgAdmin.ConfigSaved
import PgAdmin.ConfigScan
import PgAdmin.ConfigWriting
import PgAdmin.Congruential
import PgAdmin.CsvDecoding
import PgAdmin.CsvTokenizer
import PgAdmin.Cursor
import PgAdmin.DebugEvaluation
import PgAdmin.DebugGrid
import PgAdmin.DebugSettings
import PgAdmin.DebugTarget
import PgAdmin.DebugTargetDefaults
import PgAdmin.Decimal
import PgAdmin.DefaultPrivileges
import PgAdmin.DefaultPrivilegesPairs
import PgAdmin.DeleteFigures
import PgAdmin.DeletedSelection
import PgAdmin.DesignCompleteness
import PgAdmin.DesignModel
import PgAdmin.DesignNetwork
import PgAdmin.DesignScript
import PgAdmin.DesignTable
import PgAdmin.DollarLiteral
import PgAdmin.DrawingEditor
import PgAdmin.EnumLabels
import PgAdmin.ExplainCanvas
import PgAdmin.ExplainForest
import PgAdmin.ExplainRows
import PgAdmin.ExplainTree
import PgAdmin.ExportDecoding
import PgAdmin.ExportForm
import PgAdmin.FirstFit
import PgAdmin.Flex
import PgAdmin.ForeignKeyTypes
import PgAdmin.ForeignServer
import PgAdmin.ForeignServerOptions
import PgAdmin.ForeignServerSaved
import PgAdmin.ForestLayout
import PgAdmin.Fuelled
import PgAdmin.FunctionDialog
import PgAdmin.FunctionSaved
import PgAdmin.FunctionSettings
import PgAdmin.FunctionStatements
import PgAdmin.GetGrant
import PgAdmin.GrantReading
import PgAdmin.GrantReplay
import PgAdmin.GrantStatements
import PgAdmin.Handles
import PgAdmin.HbaConfigLine
import PgAdmin.HbaConfigRoundTrip
import PgAdmin.HbaConfigSpelling
import PgAdmin.Identifier
import PgAdmin.JoinLists
import PgAdmin.JoinRuns
import PgAdmin.JoinSteps
import PgAdmin.KeyedTable
import PgAdmin.KeyedUpdates
import PgAdmin.LibpqSession
import PgAdmin.LineEnds
import PgAdmin.LineHandles
import PgAdmin.LineHandlesKept
import PgAdmin.LinePool
import PgAdmin.LinkLists
import PgAdmin.NeighbourInsert
import PgAdmin.NetworkChanges
import PgAdmin.NetworkFrames
import PgAdmin.NetworkNumbered
import PgAdmin.NetworkSettled
import PgAdmin.NetworkTermination
import PgAdmin.PasteRow
import PgAdmin.PendingEdit
import PgAdmin.PgFunctionArgList
import PgAdmin.PgFunctionArguments
import PgAdmin.PgFunctionDefaults
import PgAdmin.PgFunctionNames
import PgAdmin.PgPassCodec
import PgAdmin.PgPassConfigLine
import PgAdmin.PgPassReading
import PgAdmin.PgpassFile
import PgAdmin.PgsAssignToRecord
import PgAdmin.PgsConstantOperators
import PgAdmin.PgsConstants
import PgAdmin.PgsExecute
import PgAdmin.PgsExecuteRuns
import PgAdmin.PgsExpressionNumbers
import PgAdmin.PgsGeneratorBounds
import PgAdmin.PgsGeneratorRange
import PgAdmin.PgsGenerators
import PgAdmin.PgsGrammar
import PgAdmin.PgsLineIndex
import PgAdmin.PgsMapm
import PgAdmin.PgsNumberForms
import PgAdmin.PgsObjects
import PgAdmin.PgsParser
import PgAdmin.PgsParserStacks
import PgAdmin.PgsRecord
import PgAdmin.PgsRecordAffectation
import PgAdmin.PgsRecordComparison
import PgAdmin.PgsRecordElements
import PgAdmin.PgsRecordLines
import PgAdmin.PgsRecordRoundTrip
import PgAdmin.PgsRegexGen
import PgAdmin.PgsRegexGenSets
import PgAdmin.PgsRegexGenUnits
import PgAdmin.PgsScannerDollar
import PgAdmin.PgsScannerTokens
import PgAdmin.PgsSequentialBlocks
import PgAdmin.PgsStatementErrors
import PgAdmin.PgsStatements
import PgAdmin.PgsStringRecord
import PgAdmin.PlainLiteral
import PgAdmin.PositionIterator
import PgAdmin.PrivilegeEditing
import PgAdmin.Privileges
import PgAdmin.ProviderLabels
import PgAdmin.QueryAnswers
import PgAdmin.QueryAnswersRuns
import PgAdmin.QueryColumnLists
import PgAdmin.QueryColumns
import PgAdmin.QueryFavourites
import PgAdmin.QueryJoins
import PgAdmin.QuerySelect
import PgAdmin.QuerySentence
import PgAdmin.QueryThread
import PgAdmin.QueryThreadOwners
import PgAdmin.QueryThreadResults
import PgAdmin.QueryTokenizer
import PgAdmin.RecordEdits
import PgAdmin.Recorded
import PgAdmin.RegexReplacing
import PgAdmin.RegexUnits
import PgAdmin.Regular
import PgAdmin.RelationshipsShown
import PgAdmin.RestoreRuns
import PgAdmin.RestoreSelection
import PgAdmin.RestoreToc
import PgAdmin.RoleDialog
import PgAdmin.RoleMemberships
import PgAdmin.RoleSaved
import PgAdmin.RoleStatements
import PgAdmin.Roster
import PgAdmin.RowKey
import PgAdmin.RowMoves
import PgAdmin.RowSelection
import PgAdmin.RowWindow
import PgAdmin.ScanKeywords
import PgAdmin.SecurityPanel
import PgAdmin.SelectionFlags
import PgAdmin.SeparatedLists
import PgAdmin.SortClause
import PgAdmin.SortClicks
import PgAdmin.SortTurns
import PgAdmin.SourceChains
import PgAdmin.SqlLiteral
import PgAdmin.SqlTable
import PgAdmin.SqlTableDelete
import PgAdmin.SqlTableEditedRow
import PgAdmin.SqlTableEdits
import PgAdmin.SqlTableRoster
import PgAdmin.SqlTableRowMap
import PgAdmin.SqlTableRows
import PgAdmin.SqlTableRuns
import PgAdmin.SshTunnelRelay
import PgAdmin.StatusLog
import PgAdmin.StatusLogCsv
import PgAdmin.StatusLogPlain
import PgAdmin.Substitution
import PgAdmin.ThousandsSeparator
import PgAdmin.Tokenizer
import PgAdmin.TypeModifiers
import PgAdmin.UniqueNumbering
import PgAdmin.UniqueNumberingRuns
import PgAdmin.UtfFile
import PgAdmin.WxString
import PgAdmin.XmlStream
import PgAdmin.XmlTree

import Robsd.Strings
import Robsd.Sorting
import Robsd.Decimal
import Robsd.Interpolate
import Robsd.Lexer
import Robsd.Steps
import Robsd.StepFormat
import Robsd.StepReading
import Robsd.StepCommand
import Robsd.StepUpdate
import Robsd.StepReadback
import Robsd.StepMap
import Robsd.Transition
import Robsd.StepLock
import Robsd.Scheduler
import Robsd.Shell
import Robsd.StepShell
import Robsd.StepRecord
import Robsd.Execution
import Robsd.Building
import Robsd.Resume
import Robsd.Retry
import Robsd.Running
import Robsd.TrapExit
import Robsd.Substitution
import Robsd.Staging
import Robsd.StepAtomic
import Robsd.StepSelect
import Robsd.Modes
import Robsd.TotalDuration
import Robsd.Digits
import Robsd.Invocations
import Robsd.BuildId
import Robsd.RegressRuns
import Robsd.RegressTable
import Robsd.RetryDuration
import Robsd.ConfigLexer
import Robsd.ConfigLayout
import Robsd.Bindings
import Robsd.Fnmatch
import Robsd.Configuration
import Robsd.ConfigParse
import Robsd.ConfigTokens
import Robsd.RegressConfig
import Robsd.RegressParse
import Robsd.RegressRoundTrip
import Robsd.ConfigSteps
import Robsd.LookupMemo
import Robsd.ListedSteps
import Robsd.Segments
import Robsd.RegressLog
import Robsd.Rdomain
import Robsd.RegressSteps
import Robsd.Retention
import Robsd.StepId
import Robsd.Statements
import Robsd.Growth
import Robsd.Effects
import Robsd.Redefinition
import Robsd.SuiteEnv
import Robsd.CanvasEnv
import Robsd.Acceptance
import Robsd.StepColumns
import Robsd.StepCoverage
import Robsd.ConfigCoverage
import Robsd.Tags
import Robsd.Durations
import Robsd.SuiteOrder
import Robsd.RegressTotals
import Robsd.Purity
import Robsd.Report
import Robsd.ReportLogs
import Robsd.ReportErrors
import Robsd.Pattern
import Robsd.LogId
import Robsd.Processors
import Robsd.IntegerStorage
import Robsd.LogMarkers
import Robsd.LogTail
import Robsd.LogTrim
import Robsd.LogExtraction
import Robsd.Loops
import Robsd.LexerRounds
import Robsd.ParseRounds
import Robsd.References
import Robsd.Recursion
import Robsd.KeywordRounds
import Robsd.Termination
import Robsd.Cursor
import Robsd.Links
import Robsd.HashMap
import Robsd.HashTable
import Robsd.MapEntries
import Robsd.Wait
import Robsd.Memory
import Robsd.Arenas
import Robsd.ArenaLayout
import Robsd.ArenaCalls
import Robsd.ArenaBlocks
import Robsd.Markup
import Robsd.Html
import Robsd.RegressPage
import Robsd.StepExec
import Robsd.Buffers

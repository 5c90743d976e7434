import Cppkg.Diff.MinEdit
import Cppkg.Diff.Msg
import Cppkg.Diff.Batch
import Cppkg.Diff.LongScript
import Cppkg.Diff.Overflow
import Cppkg.Diff.Lossless
import Cppkg.Diff.Texts
import Cppkg.Jobs.ManagedJob
import Cppkg.Jobs.Ownership
import Cppkg.Jobs.Sequence
import Cppkg.Jobs.Line
import Cppkg.Jobs.InOrder
import Cppkg.Jobs.JoinReturns
import Cppkg.Diff.Hunks
import Cppkg.Diff.Windows
import Cppkg.Jobs.Destructor
import Cppkg.Estd.HashList
import Cppkg.Estd.Refines
import Cppkg.Estd.Copies
import Cppkg.Fmts.Arrays
import Cppkg.Lib.Tagged
import Cppkg.Egrpc.ServerAsync
import Cppkg.Egrpc.ServerAsyncStream
import Cppkg.Egrpc.Service
import Cppkg.Egrpc.Shutdown
import Cppkg.Egrpc.Messages
import Cppkg.Egrpc.ClientAsync
import Cppkg.Diff.Endless
import Cppkg.Jobs.AfterStop
import Cppkg.Jobs.IsRunning
import Cppkg.Jobs.ScopeGuard
import Cppkg.Estd.ConfigEntry
import Cppkg.Estd.ConfigMap
import Cppkg.Egrpc.ClientStream
import Cppkg.Egrpc.WaitFor
import Cppkg.Estd.EraseElement
import Cppkg.Diff.Furthest
import Cppkg.Fmts.Pair
import Cppkg.Fmts.Split
import Cppkg.Estd.Strs
import Cppkg.Flag.Boost
import Cppkg.Flag.FlagSet
import Cppkg.Logs.DefLogger
import Cppkg.Lib.Moves
import Cppkg.Scripts.LabelUniquify
import Cppkg.Scripts.Conversions
import Cppkg.Scripts.Includes
import Cppkg.Scripts.LabelReplace
import Cppkg.Diff.Exact
import Cppkg.Diff.Distance
import Cppkg.Egrpc.Calls
import Cppkg.Egrpc.Delivery
import Cppkg.Egrpc.WindUp
import Cppkg.Estd.Iterators
import Cppkg.Jobs.Progress
import Cppkg.Scripts.Uniquified
import Cppkg.Scripts.YamlReplace
import Cppkg.Egrpc.Exchange
import Cppkg.Fmts.Join
import Cppkg.Logs.Global
import Cppkg.Flag.Usage

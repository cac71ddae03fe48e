import CageKeeper.StreamReader
import CageKeeper.LinkedCells
import CageKeeper.StreamNet
import CageKeeper.Value
import CageKeeper.WireFormat
import CageKeeper.WireGrammar
import CageKeeper.WireLaws
import CageKeeper.WireRoundTrip
import CageKeeper.WireLimits
import CageKeeper.WireProgress
import CageKeeper.DictTable
import CageKeeper.DictLookup
import CageKeeper.Crc32
import CageKeeper.LanguageLog
import CageKeeper.CallbackTable
import CageKeeper.ValueRef
import CageKeeper.ProxyParent
import CageKeeper.ProxyChild
import CageKeeper.ProxySteps
import CageKeeper.ProxyServing
import CageKeeper.ProxyLoop
import CageKeeper.ProxySurvival
import CageKeeper.ProxyInCall
import CageKeeper.ProxyReentry
import CageKeeper.ProxyGuest
import CageKeeper.SessionWire
import CageKeeper.SessionSystem
import CageKeeper.SessionSteps
import CageKeeper.SessionOrder
import CageKeeper.SessionLedger
import CageKeeper.SessionInvariant
import CageKeeper.SessionCallbacks
import CageKeeper.SessionFraming
import CageKeeper.SessionLog
import CageKeeper.SessionDirect
import CageKeeper.SessionRefinement
import CageKeeper.SessionAgreement
import CageKeeper.ClassicBpf
import CageKeeper.SeccompFilter
import CageKeeper.CheckedInt
import CageKeeper.ArrayBlocks
import CageKeeper.ReflectedCrc
import CageKeeper.LanguageFormat
import CageKeeper.NativeCall
import CageKeeper.NativeChecks
import CageKeeper.NativeDelivery
import CageKeeper.RecursiveCalls
import CageKeeper.GuestObjects
import CageKeeper.GuestConversion
import CageKeeper.GuestResults
import CageKeeper.PythonUnicode
import CageKeeper.PythonRoundTrip
import CageKeeper.DictDelete
import CageKeeper.DictOrder
import CageKeeper.SessionDefinitions
import CageKeeper.SessionPipes
import CageKeeper.DictMemory
import CageKeeper.DictChains
import CageKeeper.DictCopies
import CageKeeper.DictIteration
import CageKeeper.DictSystem
import CageKeeper.DictMultimap
import CageKeeper.DictCopyOrder
import CageKeeper.DictCloneAnswers
import CageKeeper.DictReached
import CageKeeper.DictLatest
import CageKeeper.DictGrowth
import CageKeeper.Descriptor
import CageKeeper.ReadLoops
import CageKeeper.TimedReaders
import CageKeeper.ProxyBudget
import CageKeeper.LoggedReader
import CageKeeper.WireArithmetic
import CageKeeper.ProcessSignals
import CageKeeper.WithTimeout
import CageKeeper.BinaryFloat
import CageKeeper.ValueNumbers
import CageKeeper.LuaRoundTrip
import CageKeeper.JsRoundTrip
import CageKeeper.LuaStack
import CageKeeper.LuaArguments
import CageKeeper.CallbackProxies
import CageKeeper.CallbackMemory
import CageKeeper.ChildMemory
import CageKeeper.LuaOperations
import CageKeeper.SpecRunner
import CageKeeper.SandboxLifetime
import CageKeeper.DictEntries
import CageKeeper.DictCosts
import CageKeeper.PythonCalls
import CageKeeper.DictAccess

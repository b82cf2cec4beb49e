import GinCpp.Http.Grammar
import GinCpp.Http.QueryString
import GinCpp.Http.OptionalWhitespace
import GinCpp.Http.ResponseReading
import GinCpp.Core.MemoryLimit
import GinCpp.Core.Finality
import GinCpp.Core.Timeout
import GinCpp.Core.IdleTimeout
import GinCpp.Core.Lifecycle
import GinCpp.Core.BufferOwnership
import GinCpp.Core.PoolDemand
import GinCpp.Core.Isolation
import GinCpp.Core.RunEnds
import GinCpp.Core.ReadBoundaries
import GinCpp.Core.Revival
import GinCpp.Core.Wire
import GinCpp.Core.KeepAlive
import GinCpp.Core.VersionMemory
import GinCpp.Core.VersionOverflow
import GinCpp.Core.HeaderCase
import GinCpp.Core.LostWakeup
import GinCpp.Core.Draining
import GinCpp.Core.PoolMove
import GinCpp.Core.SignalHandler
import GinCpp.Middleware.Composition
import GinCpp.Middleware.Skipping
import GinCpp.Middleware.ErrorHandler
import GinCpp.Middleware.Starts
import GinCpp.Middleware.Auth
import GinCpp.Middleware.RequestId
import GinCpp.Middleware.CookieParsing
import GinCpp.Middleware.Session
import GinCpp.Middleware.SessionContinuity
import GinCpp.Middleware.SessionIsolation
import GinCpp.Middleware.FailedHandler
import GinCpp.Middleware.RateLimiter
import GinCpp.Middleware.LimiterWindows
import GinCpp.Utils.SlidingWindow
import GinCpp.Context.Storage
import GinCpp.Context.Pipeline
import GinCpp.Utils.MiddlewareUtils
import GinCpp.KeyedTree.Basic
import GinCpp.Routing.Selection
import GinCpp.Routing.Locality
import GinCpp.Routing.Coverage
import GinCpp.Routing.Containment
import GinCpp.Routing.Authorization
import GinCpp.Routing.Predictability
import GinCpp.Template.Basic
import GinCpp.Template.Marked
import GinCpp.Routing.UrlFor
import GinCpp.Routing.StaticFiles
import GinCpp.Routing.Completeness
import GinCpp.Routing.Specificity
import GinCpp.Routing.SoleRoute
import GinCpp.Routing.AbsentParameter
import GinCpp.Routing.StaleParams
import GinCpp.Routing.AllowedMethods
import GinCpp.Routing.PatternSafety
import GinCpp.Routing.MountedFiles
import GinCpp.Routing.RegistrationOrder
import GinCpp.Routing.Reversal
import GinCpp.Routing.Groups
import GinCpp.Routing.Conflicts
import GinCpp.Routing.Protection
import GinCpp.Json.Basic
import GinCpp.Json.Writing
import GinCpp.Json.Record
import GinCpp.Json.Encoding
import GinCpp.Utils.Encoding
import GinCpp.Logging.Formatter
import GinCpp.Logging.JsonOutput
import GinCpp.Logging.TextOutput
import GinCpp.Loop.Basic
import GinCpp.Utils.Compressor
import GinCpp.Stepwise.Basic
import GinCpp.Utils.Config
import GinCpp.Utils.ConfigLoading
import GinCpp.Utils.ConfigLayers
import GinCpp.Devtools.RouteInspector

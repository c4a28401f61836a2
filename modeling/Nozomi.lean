import Nozomi.Text.Bytes
import Nozomi.Filesystem.Path
import Nozomi.Filesystem.Canonical
import Nozomi.Message.Uri
import Nozomi.Message.IOBuf
import Nozomi.Message.HTTP
import Nozomi.Message.QueryParams
import Nozomi.Handling.StreamingHTTPHandler
import Nozomi.Filesystem.InputStream
import Nozomi.Filesystem.Reading
import Nozomi.Handling.StreamingFileHandler
import Nozomi.Handling.PathContainment
import Nozomi.Handling.NormalPaths
import Nozomi.Handling.FileStreaming
import Nozomi.Handling.StreamingDelivery
import Nozomi.Routing.Router
import Nozomi.Routing.Dispatch
import Nozomi.Routing.Routes
import Nozomi.Routing.HandlerCreation
import Nozomi.Execution.Run
import Nozomi.Execution.Interleaving
import Nozomi.Handling.HTTPHandler
import Nozomi.Handling.Lifecycle
import Nozomi.Handling.Responses
import Nozomi.Forms.Encoding
import Nozomi.Forms.PostParser
import Nozomi.Forms.RoundTrip
import Nozomi.Text.Regex
import Nozomi.Text.Search
import Nozomi.Routing.RouteParsing
import Nozomi.Routing.Placeholders
import Nozomi.Routing.PatternScan
import Nozomi.Routing.PatternReplacement
import Nozomi.Forms.Composition
import Nozomi.Forms.Accessors
import Nozomi.Handling.FileResponse
import Nozomi.Time.Calendar
import Nozomi.Time.HttpDate
import Nozomi.Handling.ConditionalRequest
import Nozomi.Handling.RequestBody
import Nozomi.Handling.StreamingLifecycle
import Nozomi.Handling.TransferResponse
import Nozomi.Serving.Service
import Nozomi.Serving.Answers
import Nozomi.Text.Pattern
import Nozomi.Text.PatternSyntax
import Nozomi.Text.PatternSplicing
import Nozomi.Text.PatternPieces
import Nozomi.Text.PatternMatcher
import Nozomi.Routing.PatternLibrary
import Nozomi.Routing.OptionalChunks
import Nozomi.Routing.EmbeddedRegexes
import Nozomi.Text.PatternCaptures
import Nozomi.Routing.NumberTexts
import Nozomi.Routing.HandlerArguments
import Nozomi.Routing.ReplacementLoop
import Nozomi.Routing.RouteMeaning
import Nozomi.Routing.LiteralRoutes
import Nozomi.Routing.RouteErrors
import Nozomi.Serving.SimpleServer
import Nozomi.Serving.Program
import Nozomi.Serving.Confinement
import Nozomi.Serving.ProgramAnswers
import Nozomi.Serving.ResponseHeaders
import Nozomi.Serving.Config
import Nozomi.Serving.Server
import Nozomi.Serving.ServerLifecycle
import Nozomi.Serving.ServerMisuse
import Nozomi.Serving.PostedForms

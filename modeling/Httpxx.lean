import Httpxx.Library.Transducer
import Httpxx.Library.Reading
import Httpxx.Library.Multimap
import Httpxx.Library.Positional
import Httpxx.Library.Split
import Httpxx.Library.Memory
import Httpxx.Library.Steps
import Httpxx.CharUtils
import Httpxx.OStream
import Httpxx.StringUtils
import Httpxx.Numbers
import Httpxx.Headers
import Httpxx.MessageParser
import Httpxx.Parser.Phase
import Httpxx.Parser.Refinement
import Httpxx.Parser.Session
import Httpxx.Parser.Position
import Httpxx.Parser.Safety
import Httpxx.Parser.Retention
import Httpxx.Parser.Buffering
import Httpxx.Parser.Delivery
import Httpxx.ErrorText
import Httpxx.Grammar.Message
import Httpxx.Grammar.FirstLine
import Httpxx.Grammar.HeaderSection
import Httpxx.Grammar.Progress
import Httpxx.Grammar.Reading
import Httpxx.Grammar.Body
import Httpxx.Grammar.Decision
import Httpxx.Grammar.Acceptance
import Httpxx.Grammar.Reordering
import Httpxx.Grammar.Lengths
import Httpxx.Grammar.DeadEnds
import Httpxx.Grammar.Completion
import Httpxx.Parser.Tuning
import Httpxx.MessageComposer
import Httpxx.HeaderList
import Httpxx.Composer.Buffers
import Httpxx.Composer.Formatting
import Httpxx.RoundTrip.Written
import Httpxx.RoundTrip.FirstLine
import Httpxx.RoundTrip.HeaderLimits
import Httpxx.RoundTrip.Identity
import Httpxx.RoundTrip.Chunked
import Httpxx.RoundTrip.Folded
import Httpxx.PercentEncoding
import Httpxx.RoundTrip.PercentEncoding
import Httpxx.Uri
import Httpxx.Grammar.UriPath
import Httpxx.RoundTrip.Uri
import Httpxx.Params
import Httpxx.RoundTrip.Params
import Httpxx.RoundTrip.Conversation
import Httpxx.RoundTrip.Canonical
import Httpxx.Server.HttpTask
import Httpxx.Server.Connection
import Httpxx.Server.Response
import Httpxx.Server.HttpServer

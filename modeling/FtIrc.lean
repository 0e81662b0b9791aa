import FtIrc.Grammar.Compiling
import FtIrc.Grammar.FastPath
import FtIrc.Library.Guarded
import FtIrc.Library.Machine
import FtIrc.Library.Pattern
import FtIrc.Server.Accounts
import FtIrc.Server.Admission
import FtIrc.Server.Echoes
import FtIrc.Server.Following
import FtIrc.Server.Framing
import FtIrc.Server.JoinLists
import FtIrc.Server.ModeText
import FtIrc.Server.Names
import FtIrc.Server.Pings
import FtIrc.Server.Protocol
import FtIrc.Server.Secrecy
import FtIrc.Server.Streams
import FtIrc.Shipped.EmbeddedGrammarSource
import FtIrc.Grammar.Fuel
import FtIrc.Library.Predicting

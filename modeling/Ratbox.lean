import Ratbox.Linebuf.Accounting
import Ratbox.Channel.Announcing
import Ratbox.Channel.Topic
import Ratbox.Channel.BurstTrip
import Ratbox.Nick.Delay
import Ratbox.Nick.Collision
import Ratbox.Linebuf.Flushing
import Ratbox.Event
import Ratbox.Monitor
import Ratbox.Chasing
import Ratbox.Limits.Runs
import Ratbox.GlobalCidr
import Ratbox.Services.Runs
import Ratbox.Connect
import Ratbox.Hunt
import Ratbox.Bandb.Restoring
import Ratbox.Kline.Redundant
import Ratbox.Escapes.Matching
import Ratbox.Relay.Delivery
import Ratbox.Netsplit.Runs
import Ratbox.Ssld.Control
import Ratbox.Ssld.Zlib
import Ratbox.Ssld.Certfp
import Ratbox.Accept.Runs
import Ratbox.Channel.Invites
import Ratbox.Banlist.Covering
import Ratbox.Res.Answers
import Ratbox.Auth.Safety
import Ratbox.Duration
import Ratbox.Params
import Ratbox.Linebuf.Trimming
import Ratbox.Hostmask.Widths
import Ratbox.Rawbuf.Getting
import Ratbox.Uid
import Ratbox.Kline.Cidr
import Ratbox.Snprintf.Formatting
import Ratbox.Targets
import Ratbox.Gecos
import Ratbox.Nick.Expiry
import Ratbox.Dlines.Reports
import Ratbox.Res.Sockets
import Ratbox.Res.Records
import Ratbox.Counts.Runs
import Ratbox.Auth.Rbls
import Ratbox.Channel.Names
import Ratbox.Substitution
import Ratbox.SetMode.Members
import Ratbox.Gline.Votes
import Ratbox.Base64
import Ratbox.Inet

import Freehold.Client.Resharding
import Freehold.Discovery.Announcements
import Freehold.Discovery.Documents
import Freehold.Discovery.Frames
import Freehold.Discovery.Freshness
import Freehold.Discovery.Handshake
import Freehold.Discovery.Live
import Freehold.Discovery.Output
import Freehold.Discovery.Subscriber
import Freehold.Forwarder.Gate
import Freehold.Forwarder.HeaderJson
import Freehold.Forwarder.Relay
import Freehold.Mail.Dialogue
import Freehold.Mail.Integrity
import Freehold.Mail.Replies
import Freehold.Mail.Starttls
import Freehold.Proxy.Routing
import Freehold.Relay.Interference
import Freehold.Relay.Neighbors
import Freehold.Relay.Retry
import Freehold.Server.Acceptance
import Freehold.Server.AuthPlain
import Freehold.Server.Counters
import Freehold.Server.CommandLine
import Freehold.Server.Departure
import Freehold.Server.Determinism
import Freehold.Server.Disclosure
import Freehold.Server.Durability
import Freehold.Server.Epochs
import Freehold.Server.Forgery
import Freehold.Server.Freshness
import Freehold.Server.HashText
import Freehold.Server.KeySchedule
import Freehold.Server.Membership
import Freehold.Server.Notices
import Freehold.Server.Petitions
import Freehold.Server.Presence
import Freehold.Server.Sequence
import Freehold.Server.Shard
import Freehold.Server.Shutdown
import Freehold.Server.Verdicts
import Freehold.Web.Quorum
import Freehold.Web.ShareSecrecy
import Freehold.Web.SharedWs
import Freehold.Web.Subscription

import PaiSho.Library.Traces
import PaiSho.Library.Scripts
import PaiSho.Library.OrderedMaps
import PaiSho.Library.TaskLists
import PaiSho.Library.MirrorMaps
import PaiSho.Library.LengthPrefixed
import PaiSho.Library.LossyText
import PaiSho.Library.EncodedText
import PaiSho.Library.JsonTokens
import PaiSho.Library.JsonText
import PaiSho.Library.JsonRecords
import PaiSho.GrantTable
import PaiSho.Enrollment
import PaiSho.SessionCore
import PaiSho.SessionSteps
import PaiSho.Authorization
import PaiSho.Admissions
import PaiSho.Announcements
import PaiSho.OneTimeCodes
import PaiSho.Isolation
import PaiSho.Handshakes
import PaiSho.Refusals
import PaiSho.PeerWire
import PaiSho.Messages
import PaiSho.PeerStreams
import PaiSho.DialLink
import PaiSho.ConnectionLoop
import PaiSho.Wakeups
import PaiSho.Pacing
import PaiSho.PeerTasks
import PaiSho.LoopSimulation
import PaiSho.Forget
import PaiSho.RecordInvariant
import PaiSho.RecordSteps
import PaiSho.LiveRecords
import PaiSho.Membership
import PaiSho.RecordFiles
import PaiSho.PinnedPeers
import PaiSho.Restart
import PaiSho.AdmissionRecords
import PaiSho.PinWriters
import PaiSho.AnnouncementTasks
import PaiSho.Convergence
import PaiSho.SurfaceManager
import PaiSho.SurfacePorts
import PaiSho.SurfaceSteps
import PaiSho.SurfaceRestore
import PaiSho.SurfaceOutcomes
import PaiSho.SurfaceRequests
import PaiSho.Addresses
import PaiSho.Bindings
import PaiSho.ClaimedAddresses
import PaiSho.TakenDown
import PaiSho.Names
import PaiSho.NameMap
import PaiSho.NamedSurfaces
import PaiSho.Projections
import PaiSho.Listeners
import PaiSho.Resolver
import PaiSho.Questions
import PaiSho.Replies
import PaiSho.Answers
import PaiSho.Lookups
import PaiSho.WireLabels
import PaiSho.ResolverLoops
import PaiSho.Invitations
import PaiSho.Handovers
import PaiSho.ControlRequests
import PaiSho.References
import PaiSho.Forwarding
import PaiSho.TunnelPaths
import PaiSho.Startup
import PaiSho.StateFiles
import PaiSho.KeyFile
import PaiSho.LaunchdService
import PaiSho.ServiceRuns
import PaiSho.ServiceReports
import PaiSho.ControlSocket

import Lixy.Foundation.LongestPrefix
import Lixy.Foundation.EventRuns
import Lixy.MapTable.Writers
import Lixy.MapTable.TableRuns
import Lixy.Daemon.QueryResolution
import Lixy.Daemon.CacheIntegrity
import Lixy.Daemon.StaticImmunity
import Lixy.Daemon.RouteAgreement
import Lixy.Daemon.FamilyIsolation
import Lixy.Daemon.DataPath
import Lixy.Daemon.Origins
import Lixy.Daemon.QueryPacing
import Lixy.Daemon.MessageBuffers
import Lixy.Daemon.RouteScopes
import Lixy.Daemon.EncapsulatedControl
import Lixy.Daemon.ReplyPlacement
import Lixy.Daemon.ReplyContents
import Lixy.Daemon.ReplySequences
import Lixy.Messages.ReadBounds
import Lixy.Messages.ReplyRoundTrip
import Lixy.Messages.RegisterLayout
import Lixy.Messages.RequestLayout
import Lixy.Messages.ProbeParsing
import Lixy.Messages.BufferBounds
import Lixy.Control.CommandLines
import Lixy.Control.CommandEffects
import Lixy.Control.ArgumentSafety
import Lixy.Control.LocatorHistories
import Lixy.Control.EidStore
import Lixy.Control.RegisterRounds
import Lixy.Control.MapServers
import Lixy.Control.RouteAnswers
import Lixy.Control.RouteListing
import Lixy.Daemon.TreeBounds
import Lixy.Control.PrefixWithdrawals
import Lixy.Control.MessageSplitting
import Lixy.Messages.Checksums
import Lixy.Control.ListHistories
import Lixy.Control.NodeNetwork
import Lixy.Control.ShownRoutes

import Gwems.Library.Machine
import Gwems.Library.Keyed
import Gwems.Util.TwoWayMapping
import Gwems.Util.TwoWayRelation
import Gwems.Util.TwoWayRemoval
import Gwems.Agents.Agent
import Gwems.Servers.Global
import Gwems.Servers.Link
import Gwems.Util.RunnablesQueue
import Gwems.Servers.Upstream
import Gwems.Servers.GwemsPubSub
import Gwems.Util.TimeoutCache
import Gwems.Util.TimeoutCacheExpiry
import Gwems.Util.TimeoutCacheFiring
import Gwems.Servers.Session
import Gwems.Servers.SessionExpiry
import Gwems.Servers.KeepAlive
import Gwems.Library.Flight
import Gwems.Library.Tree
import Gwems.Servers.PubSubTree
import Gwems.Servers.PubSubTreeSubscriptions
import Gwems.Servers.PubSubTreeDelivery
import Gwems.Servers.ExecutionContext
import Gwems.Servers.PooledThreads
import Gwems.Servers.JsEnginePool
import Gwems.Servers.JsTimers
import Gwems.Library.SignedDigits
import Gwems.Library.Text
import Gwems.WebContent.Gwems
import Gwems.WebContent.QuadSpaces
import Gwems.WebContent.QuadSpacesTracker
import Gwems.WebContent.QuadSpacesVisibility
import Gwems.Library.Json
import Gwems.Messages.Push2Client
import Gwems.Library.Conveyor
import Gwems.Servers.Traffic
import Gwems.Servers.PublishOrder
import Gwems.Experiments.QuadSpaces
import Gwems.Util.TimeoutCacheTasks
import Gwems.Servers.JsIntervals
import Gwems.Library.Lease
import Gwems.Servers.BusySessions
import Gwems.Servers.ChannelFrames
import Gwems.Servers.Delivery
import Gwems.Messages.ChannelNames
import Gwems.Experiments.QuadSpacesLevels
import Gwems.Experiments.QuadSpacesGrammar
import Gwems.Experiments.HexOctTrees
import Gwems.Library.Pace
import Gwems.WebContent.QuadSpacesMoving
import Gwems.WebContent.QuadSpacesRate
import Gwems.Library.Percent
import Gwems.Servers.GwemsMainHttpHandler
import Gwems.WebContent.WootWideChat
import Gwems.Experiments.ShaTests
import Gwems.WebContent.MineForKey
import Gwems.Library.SearchTree
import Gwems.Util.TimeoutCacheTree
import Gwems.WebContent.ChatPages
import Gwems.Util.TimeoutCacheOnce
import Gwems.Servers.JsTimeouts
import Gwems.Servers.StaticFiles
import Gwems.Servers.BrowserCaches
import Gwems.Experiments.QuadSpacesCubes
import Gwems.WebContent.ChatWorld
import Gwems.WebContent.ChatLog
import Gwems.Servers.Browsing

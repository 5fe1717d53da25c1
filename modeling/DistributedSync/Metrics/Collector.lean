import Mathlib.Data.List.Sort
import Mathlib.Data.Prod.Lex
import Mathlib.Data.String.Basic
import DistributedSync.Json
import DistributedSync.Library.Dict
import DistributedSync.Library.Exposition

/-!
# The metrics collector

`MetricsCollector` of `metrics.py`: the calls that record values under the key that `_make_key` makes of a name and
labels, and the text that `get_prometheus_output` makes of them.  How Python formats and multiplies numbers is a
parameter (`Measure`), of which the model asks that numbers are formatted as numbers.
-/

namespace DistributedSync

/-- The quantiles `0.5`, `0.95` and `0.99`. -/
inductive Quantile where
  | median | p95 | p99
  deriving DecidableEq

/-- The quantile as it is formatted. -/
def Quantile.text : Quantile → String
  | .median => "0.5"
  | .p95 => "0.95"
  | .p99 => "0.99"

/-- The quantile in percent. -/
def Quantile.percent : Quantile → Nat
  | .median => 50
  | .p95 => 95
  | .p99 => 99

/-- The numbers that are recorded: `text x` is `str(x)`, `fixed x` is `format(x, ".6f")`, and `position n q` is
`int(n * q)`. -/
class Measure (ν : Type) extends Number ν, Sub ν where
  text : ν → String
  fixed : ν → String
  position : Nat → Quantile → Nat
  numeral_text : ∀ x, Exposition.Numeral (text x).toList
  numeral_fixed : ∀ x, Exposition.Numeral (fixed x).toList

structure MetricsCollector (ν : Type) where
  nodeId : String := ""
  counters : Dict String ν := .empty
  gauges : Dict String ν := .empty
  histograms : Dict String (List ν) := .empty

/-- `_make_key`; no labels and `None` are alike. -/
def makeKey (name : String) (labels : Dict String String) : String :=
  if labels.entries.isEmpty then name
  else
    let items := labels.entries.insertionSort fun a b => toLex a ≤ toLex b
    let labelStr := ",".intercalate (items.map fun e => e.1 ++ "=\"" ++ e.2 ++ "\"")
    name ++ "\x7b" ++ labelStr ++ "\x7d"

/-- The part of a key in front of the labels, if there are any. -/
def keyName (key : String) : String := String.ofList (key.toList.takeWhile fun c => c ≠ '{')

/-- The items of a dictionary by their keys, which are different. -/
def sortedItems {β : Type} (d : Dict String β) : List (String × β) := d.entries.insertionSort fun a b => a.1 ≤ b.1

namespace MetricsCollector

variable {ν : Type} [Measure ν]

/-! ### Recording -/

def counterInc (s : MetricsCollector ν) (name : String) (value : ν) (labels : Dict String String) :
    MetricsCollector ν :=
  let key := makeKey name labels
  { s with counters := s.counters.set key ((s.counters.get? key).getD 0 + value) }

def gaugeSet (s : MetricsCollector ν) (name : String) (value : ν) (labels : Dict String String) :
    MetricsCollector ν :=
  { s with gauges := s.gauges.set (makeKey name labels) value }

def gaugeInc (s : MetricsCollector ν) (name : String) (value : ν) (labels : Dict String String) :
    MetricsCollector ν :=
  let key := makeKey name labels
  { s with gauges := s.gauges.set key ((s.gauges.get? key).getD 0 + value) }

def gaugeDec (s : MetricsCollector ν) (name : String) (value : ν) (labels : Dict String String) :
    MetricsCollector ν :=
  let key := makeKey name labels
  { s with gauges := s.gauges.set key ((s.gauges.get? key).getD 0 - value) }

def histogramObserve (s : MetricsCollector ν) (name : String) (value : ν) (labels : Dict String String) :
    MetricsCollector ν :=
  let key := makeKey name labels
  { s with histograms := s.histograms.set key ((s.histograms.get? key).getD [] ++ [value]) }

/-! ### The output -/

/-- The lines of a counter or of a gauge. -/
def valueLines (kind : String) (e : String × ν) : List String :=
  ["# TYPE " ++ keyName e.1 ++ " " ++ kind, e.1 ++ " " ++ Measure.text e.2]

/-- The lines of a histogram: count, sum and quantiles. -/
def histogramLines (e : String × List ν) : List String :=
  let typeLine := "# TYPE " ++ keyName e.1 ++ " summary"
  let observations := e.2
  if observations.isEmpty then [typeLine]
  else
    let sortedObs := observations.insertionSort fun a b => ¬b < a
    [typeLine, e.1 ++ "_count " ++ toString observations.length,
      e.1 ++ "_sum " ++ Measure.fixed (observations.foldl (· + ·) 0)] ++
    [Quantile.median, .p95, .p99].map fun q =>
      let idx := min (Measure.position ν sortedObs.length q) (sortedObs.length - 1)
      e.1 ++ "\x7bquantile=\"" ++ q.text ++ "\"\x7d " ++ Measure.fixed (sortedObs.getD idx 0)

def outputLines (s : MetricsCollector ν) : List String :=
  ["# Node: " ++ s.nodeId, ""] ++ (sortedItems s.counters).flatMap (valueLines "counter") ++
    (sortedItems s.gauges).flatMap (valueLines "gauge") ++ (sortedItems s.histograms).flatMap histogramLines

def getPrometheusOutput (s : MetricsCollector ν) : String := "\n".intercalate s.outputLines ++ "\n"

/-! ### Calls -/

/-- What a metric is used as. -/
inductive Kind where
  | counter | gauge | histogram
  deriving DecidableEq

inductive Operation where
  | counterInc | gaugeSet | gaugeInc | gaugeDec | histogramObserve
  deriving DecidableEq

/-- A call of one of the recording methods. -/
structure Call (ν : Type) where
  operation : Operation
  name : String
  value : ν
  labels : Dict String String := .empty

namespace Call

def kind (c : Call ν) : Kind :=
  match c.operation with
  | .counterInc => .counter
  | .gaugeSet | .gaugeInc | .gaugeDec => .gauge
  | .histogramObserve => .histogram

def key (c : Call ν) : String := makeKey c.name c.labels

end Call

def record (s : MetricsCollector ν) (c : Call ν) : MetricsCollector ν :=
  match c.operation with
  | .counterInc => s.counterInc c.name c.value c.labels
  | .gaugeSet => s.gaugeSet c.name c.value c.labels
  | .gaugeInc => s.gaugeInc c.name c.value c.labels
  | .gaugeDec => s.gaugeDec c.name c.value c.labels
  | .histogramObserve => s.histogramObserve c.name c.value c.labels

/-- The collector of a node after the calls. -/
def after (nodeId : String) (calls : List (Call ν)) : MetricsCollector ν := calls.foldl record { nodeId }

end MetricsCollector

end DistributedSync

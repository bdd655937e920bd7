import ClipLedger.Files.Operations
import ClipLedger.Json.Number
import ClipLedger.Json.Writer
import ClipLedger.Text.Pairs

/-
  Statistics over the pairs of the first responses that were observed.
-/
namespace ClipLedger

/-- Statistics over the first responses. Spread and extremes need two responses. -/
structure BaselineMetrics where
  totalResponses : Nat
  uniqueKeys : Nat
  uniqueValues : Nat
  averageLength : Float
  lengthDeviation : Option Float
  shortest : Option Nat
  longest : Option Nat
  keyDiversity : Float
  valueDiversity : Float

namespace BaselineMetrics

/-- The mean of `lengths`; zero where there are none. -/
def mean (lengths : List Nat) : Float :=
  if lengths = [] then 0 else Float.ofNat (lengths.foldr (· + ·) 0) / Float.ofNat lengths.length

/-- The square of the distance of `length` from `mean`. -/
def squaredDistance (mean : Float) (length : Nat) : Float :=
  (Float.ofNat length - mean) * (Float.ofNat length - mean)

/-- The standard deviation of `lengths`, which are all there are and no sample. -/
def deviation (lengths : List Nat) : Float :=
  let squares := lengths.map (squaredDistance (mean lengths))
  (squares.foldl (· + ·) 0 / Float.ofNat lengths.length).sqrt

/-- The number of different texts among `texts`. -/
def distinct (texts : List Text) : Nat := texts.eraseDups.length

/-- The statistics over `responses`, each given by its pairs. -/
def of (responses : List (List Pair)) : BaselineMetrics :=
  let lengths := responses.map List.length
  let keys := distinct (responses.flatten.map Pair.key)
  let values := distinct (responses.flatten.map Pair.value)
  let several := 2 ≤ lengths.length
  let responseCount := Float.ofNat (max responses.length 1)
  { totalResponses := responses.length
    uniqueKeys := keys
    uniqueValues := values
    averageLength := mean lengths
    lengthDeviation := if several then some (deviation lengths) else none
    shortest := if several then lengths.min? else none
    longest := if several then lengths.max? else none
    keyDiversity := Float.ofNat keys / responseCount
    valueDiversity := Float.ofNat values / responseCount }

/-- The statistics as a JSON object; `timestamp` is the time when their collection began. -/
def toJson (m : BaselineMetrics) (timestamp : Text) : Json :=
  .record [("timestamp", .text timestamp), ("total_responses", .ofNat m.totalResponses),
    ("unique_keys", .ofNat m.uniqueKeys), ("unique_values", .ofNat m.uniqueValues),
    ("avg_response_length", .ofFloat m.averageLength),
    ("response_length_std", .ofOption .ofFloat m.lengthDeviation),
    ("response_length_min", .ofOption .ofNat m.shortest),
    ("response_length_max", .ofOption .ofNat m.longest),
    ("key_diversity", .ofFloat m.keyDiversity), ("value_diversity", .ofFloat m.valueDiversity)]

/-- Writes the statistics to `p` over what is there. An error is passed over. -/
def writeTo (m : BaselineMetrics) (t : FileTree) (p : Path) (timestamp : Text) : FileTree :=
  (t.write p (Utf8.encode (m.toJson timestamp).pretty)).2

end BaselineMetrics
end ClipLedger

import CaenDaq.GraphiteClient
import CaenDaq.Rates
import CaenDaq.Separated

/-!
# Metric lines

The metric prefix of the statistics collector and the text that it makes of the rates.
Text is a list of bytes, each as the character of that code.
-/

namespace CaenDaq

abbrev Text := List Char

namespace MetricLines

open Separated

/-- `std::isalnum` in the C locale. -/
def isAlnum (c : Char) : Bool :=
  ('0' ≤ c && c ≤ '9') || ('A' ≤ c && c ≤ 'Z') || ('a' ≤ c && c ≤ 'z')

def sanitizeChar (c : Char) : Char := if isAlnum c || c = '.' || c = '-' then c else '_'

def defaultPrefix : Text := "ancillary.rates".toList

def isDot (c : Char) : Bool := c = '.'

def sanitizePrefix (s : Text) : Text :=
  let out := s.map sanitizeChar
  if out.all isDot then defaultPrefix else (out.dropWhile isDot).rdropWhile isDot

/-- How the stream prints a number: digits, sign, point and exponent, or the name of a value
that is no number, without white space. -/
structure NumberFormat where
  print : ℚ → Text
  print_ne_nil : ∀ q, print q ≠ []
  visible : ∀ q, ∀ c ∈ print q, c.isWhitespace = false

def decimal (n : ℕ) : Text := Nat.toDigits 10 n

def newline : Char := '\n'

def metricLine (path value : Text) (epoch : ℤ) : Text :=
  path ++ ' ' :: (value ++ ' ' :: ((toString epoch).toList ++ [newline]))

def boardPath (metricPrefix : Text) (board : UInt16) : Text :=
  metricPrefix ++ ".bo_".toList ++ decimal board.toNat

def channelPath (metricPrefix : Text) (board ch : UInt16) (metric : String) : Text :=
  boardPath metricPrefix board ++ ".ch_".toList ++ decimal ch.toNat ++ '.' :: metric.toList

def boardLine (f : NumberFormat) (metricPrefix : Text) (epoch : ℤ) (b : BoardRate) : Text :=
  metricLine (boardPath metricPrefix b.boardRegId ++ ".writeRate".toList) (f.print b.writeRate)
    epoch

def channelMetrics (c : ChannelRate) : List (String × ℚ) :=
  [("totalRate", c.events), ("pileRate", c.pileup), ("lostRate", c.lost), ("satuRate", c.satu)]

def channelLines (f : NumberFormat) (metricPrefix : Text) (epoch : ℤ) (c : ChannelRate) :
    List Text :=
  (channelMetrics c).map fun m =>
    metricLine (channelPath metricPrefix c.board c.ch m.1) (f.print m.2) epoch

def formatBoard (f : NumberFormat) (metricPrefix : Text) (epoch : ℤ) (oss : Text)
    (b : BoardRate) : Text :=
  b.channels.foldl (fun oss c => oss ++ (channelLines f metricPrefix epoch c).flatten)
    (oss ++ boardLine f metricPrefix epoch b)

def formatGraphite (f : NumberFormat) (rates : List BoardRate) (metricPrefix : Text) (epoch : ℤ) :
    Text := rates.foldl (formatBoard f metricPrefix epoch) []

/-- The Graphite part of the collector: `opt_` and the client. -/
structure GraphiteSettings where
  graphiteHost : String
  graphitePort : ℤ
  metricPrefix : Text
  graphite : Option GraphiteClient
  deriving DecidableEq

def construct (host : String) (port : ℤ) (metricPrefix : Text) : GraphiteSettings :=
  { graphiteHost := host
    graphitePort := port
    metricPrefix := sanitizePrefix metricPrefix
    graphite := if host = "" then none else some { host, port } }

structure Retarget where
  host : String
  port : ℤ
  metricPrefix : Text
  deriving DecidableEq

def setGraphite (s : GraphiteSettings) (t : Retarget) : GraphiteSettings :=
  { graphiteHost := t.host
    graphitePort := t.port
    metricPrefix := if t.metricPrefix = [] then s.metricPrefix else sanitizePrefix t.metricPrefix
    graphite := if t.host = "" then none else some { host := t.host, port := t.port } }

def givenPrefix (metricPrefix : Text) (calls : List Retarget) : Text :=
  ((calls.map Retarget.metricPrefix).filter (· ≠ [])).getLastD metricPrefix

end MetricLines
end CaenDaq

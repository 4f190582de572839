import WordProblem.Recognizer.Chart
import WordProblem.Recognizer.Numbered

/-! # Filling a chart

The cell of a non-terminal and a span is set once the non-terminal is known to generate
the span. Letters come first, then spans of growing length, each of which is put together
from two shorter ones.
-/
namespace WordProblem

/-- Sets the cell of `r.lhs` if `r` joins two set cells that meet at one of `mids`. Both of them
belong to shorter spans, so the order of the rules does not matter. -/
def Chart.join (i j : Nat) (mids : List Nat) (chart : Chart) (r : PairRule) : Chart :=
  if chart.get r.lhs i j then chart
  else if mids.any fun m => chart.get r.left i m && chart.get r.right m j then
    chart.set r.lhs i j
  else chart

namespace Numbered

def fillSpan (m : Numbered) (length : Nat) (chart : Chart) (i : Nat) : Chart :=
  m.pairRules.foldl (Chart.join i (i + length) (List.range' (i + 1) (length - 1))) chart

def fillLength (m : Numbered) (chart : Chart) (length : Nat) : Chart :=
  (List.range (chart.length + 1 - length)).foldl (m.fillSpan length) chart

def fillLetter (m : Numbered) (chart : Chart) (ci : Char × Nat) : Chart :=
  (m.producers ci.1).foldl (fun chart a => chart.set a ci.2 (ci.2 + 1)) chart

/-- The chart of a word with all spans of length one settled. -/
def letters (m : Numbered) (word : List Char) : Chart :=
  word.zipIdx.foldl m.fillLetter (Chart.blank m.size word.length)

/-- The chart of a word with all spans up to the given length settled. -/
def chart (m : Numbered) (word : List Char) (length : Nat) : Chart :=
  (List.range' 2 (length - 1)).foldl m.fillLength (m.letters word)

def accepts (m : Numbered) (word : List Char) : Bool :=
  if word.isEmpty then m.acceptsEmpty
  else (m.chart word word.length).get m.start 0 word.length

end Numbered

end WordProblem

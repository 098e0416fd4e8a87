import Variability.Number.Shortest
import Variability.Scattering.Degree

set_option autoImplicit false

namespace Variability

def sumOf (xs : List Double) : Double := xs.foldl Double.add .zero

def sumOfEights : List Double → List Double → List Double
  | a :: as, b :: bs => a.add b :: sumOfEights as bs
  | as, _ => as

def sumGroups : Nat → List Double → List Double → List Double × List Double
  | 0, sums, xs => (sums, xs)
  | groups + 1, sums, xs => sumGroups groups (sumOfEights sums (xs.take 8)) (xs.drop 8)

def sumPairs : List Double → Double
  | [a, b, c, d, e, f, g, h] => ((a.add b).add (c.add d)).add ((e.add f).add (g.add h))
  | xs => sumOf xs

/-- A sum with small rounding errors: long lists are halved, short ones added in eight strands. -/
def pairwiseSum : Nat → List Double → Double
  | 0, xs => sumOf xs
  | fuel + 1, xs =>
    let n := xs.length
    if n < 8 then sumOf xs
    else if n ≤ 128 then
      let (sums, rest) := sumGroups (n / 8 - 1) (xs.take 8) (xs.drop 8)
      rest.foldl Double.add (sumPairs sums)
    else
      let half := n / 2 - n / 2 % 8
      (pairwiseSum fuel (xs.take half)).add (pairwiseSum fuel (xs.drop half))

def total (xs : List Double) : Double := pairwiseSum xs.length xs

def meanAndDeviation : List Double → Double × Double
  | [] => (.zero, .zero)
  | [x] => (x, .zero)
  | xs =>
    let n := Double.ofInt xs.length
    let mean := (total xs).div n
    let squares := xs.map fun x => (x.sub mean).mul (x.sub mean)
    (mean, ((total squares).div (.ofInt (xs.length - 1))).sqrt)

structure DegreeStatistics where
  ifdefMean : Double
  ifdefDeviation : Double
  fileMean : Double
  fileDeviation : Double
  deriving Repr

/-- The statistics of both degrees; missing if some degree is beyond the range of doubles. -/
def Degrees.statistics? (c : Degrees) : Option DegreeStatistics := do
  let ifdefs ← c.toList.mapM fun d => Double.ofInt? d.ifdefs
  let files ← c.toList.mapM fun d => Double.ofInt? d.files
  let (ifdefMean, ifdefDeviation) := meanAndDeviation ifdefs
  let (fileMean, fileDeviation) := meanAndDeviation files
  return ⟨ifdefMean, ifdefDeviation, fileMean, fileDeviation⟩

end Variability

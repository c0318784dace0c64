/-! # Vector similarity

The correlation of two access vectors is the cosine of the angle between them, computed in
doubles from left to right. It is there for detectors that compare access vectors. Nothing else in
the library computes with it. -/

namespace UnitGraph.Similarity

/-- The sum from left to right. It starts at negative zero, which is neutral for every double. -/
def sum (xs : List Float) : Float :=
  xs.foldl (· + ·) (-0.0)

def norm (xs : List Float) : Float :=
  (sum (xs.map fun x => x * x)).sqrt

/-- The correlation coefficient, 0 when either norm is zero. The shorter vector goes as if padded
with zeros. -/
def correlation (a b : List Float) : Float :=
  let norms := norm a * norm b
  if norms == 0 then 0 else sum (List.zipWith (· * ·) a b) / norms

end UnitGraph.Similarity

import ImpuritySampler.Decimal.Text
import ImpuritySampler.Fault
import ImpuritySampler.Scalar.Binary64

/-!
# Texts of faults

Times are written with eight decimals, other numbers with the digits that read back. Rules about a
state are followed by its configuration, a line of text for each color.
-/

set_option autoImplicit false

namespace ImpuritySampler

def Time.text (t : Time Float) : String := Decimal.fixed 8 t.value

def Segment.text (s : Segment Float) : String :=
  s!"[c: {s.annihilation.text}, cdag: {s.creation.text}]"

def Configuration.text (c : Configuration Float) : String :=
  String.join (c.lines.zipIdx.map fun (l, color) =>
    s!"\ncolor {color}:" ++ String.join (l.map fun s => " " ++ s.text))

def Sign.text : Sign → String
  | plus => "1"
  | minus => "-1"

def TrialKind.text : TrialKind → String
  | insertion => "try_insert"
  | removal => "try_remove"

open Decimal in
def Violation.message : Violation Float → String
  | fullLineShared c => s!"Full line of color {c} shares the line with other segments"
  | zeroLength c k => s!"Segment {k} of color {c} has zero length"
  | wrapsEarly c => s!"Only the last segment of color {c} may wrap around beta"
  | unsorted c k => s!"Segments {k} and {k + 1} of color {c} are not sorted"
  | overlapping c k x => s!"Segment {k} of color {c} overlaps the following segments by {plain x}"
  | trialLeft c => s!"Trial left pending on color {c}"
  | sizesDiffer c d n => s!"Determinant of color {c} has size {d} for {n} segments"
  | annihilationsDiffer c => s!"Annihilation times of color {c} differ from the determinant"
  | creationsDiffer c => s!"Creation times of color {c} differ from the determinant"

open Decimal in
def Mismatch.message : Mismatch Float → String
  | beta a b => s!"Cannot merge results at beta = {plain a} and beta = {plain b}"
  | observables => "Cannot merge results measuring different observables"
  | densities => "Densities of different sizes"
  | meshes => "Green's functions of different shapes"
  | histograms => "Histograms for different numbers of colors"

open Decimal in
/-- The text of a cause; the first ones, which the program does not describe, have none. -/
def Fault.message? : Fault Float → Option String
  | overflow => none
  | outOfRange => none
  | shapesDiffer => none
  | tableTooLarge => none
  | tooManyColors => none
  | sourceExhausted => none
  | weightsNotFinite => none
  | periodNotPositive => some "beta must be positive"
  | periodsDiffer => some "Times on different cycles"
  | timeNotFinite x => some s!"Cannot build a time from {plain x}"
  | emptyWindow => some "Cannot draw a time in an empty window"
  | beyondList i n => some s!"Index {i} out of list of length {n}"
  | noColor => some "At least one color is required"
  | noHole c => some s!"Color {c} has no hole to close"
  | lineNotEmpty c => some s!"Cannot fill color {c} which already holds segments"
  | notSquare r c => some s!"Expected a square matrix, got shape [{r}, {c}]"
  | meshTooShort n => some s!"The imaginary-time mesh needs at least 2 points, got {n}"
  | tabulationTooShort => some "The imaginary-time mesh needs at least 2 points"
  | tabulationShape => some "Tabulated matrix has wrong shape"
  | measurementMeshTooShort => some "The tau mesh needs at least 2 points"
  | outsideMesh x => some s!"tau = {plain x} outside of [0, beta]"
  | insertionOutOfRange i j n => some s!"Insertion at ({i}, {j}) out of range for size {n}"
  | removalOutOfRange i j n => some s!"Removal at ({i}, {j}) out of range for size {n}"
  | trialPending kind => some s!"{kind.text} called while another trial is pending"
  | noTrial => some "complete_operation called without a pending trial"
  | invalidParams p => some s!"Invalid parameters: {p.message}"
  | noKernel k => some s!"{k.text}(tau) requested but no {k.interaction} interaction is active"
  | noProposal kind => some s!"{kind.name}: accept called without a proposal"
  | creationMissing t c =>
    some s!"Creation time {t.text} of color {c} is missing from the determinant"
  | signProblem d r c =>
    some (s!"Move has produced a negative sign: det sign is {d.text} and trace sign ratio is "
      ++ s!"{r.text}. Configuration:{c.text}")
  | weightCount => some "Moves and weights must have the same length"
  | negativeWeights => some "Weights must be non-negative"
  | negativeWeight => some "Weight must be non-negative"
  | invalidWeights => some "Invalid weights"
  | determinantCount => some "One determinant per color is required"
  | violated v c => some s!"{v.message}. Configuration:{c.text}"
  | signDrift r e c =>
    some (s!"Running sign {r.text} differs from the sign {e.text} recomputed from scratch. "
      ++ s!"Configuration:{c.text}")
  | mismatch m => some m.message

end ImpuritySampler

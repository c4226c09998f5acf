import ImpuritySampler.Decimal.Text

/-!
# What can be wrong with parameters

One case per rule that a parameter set has to obey, with the values that break it.
-/

set_option autoImplicit false

namespace ImpuritySampler

inductive KernelName where
  | retarded
  | retardedSlope
  | spinSlope
deriving DecidableEq

def KernelName.text : KernelName → String
  | retarded => "K"
  | retardedSlope => "K'"
  | spinSlope => "K'_perp"

def KernelName.interaction : KernelName → String
  | retarded => "retarded"
  | retardedSlope => "retarded"
  | spinSlope => "spin-spin"

inductive Problem (α : Type) where
  | beta (beta : α)
  | noColor
  | interactionShape (colors : Nat)
  | interactionDiagonal (color : Nat) (value : α)
  | interactionAsymmetric (color other : Nat) (value transposed : α)
  | hybridizationCount (colors given : Nat)
  | hybridizationBeta (color : Nat) (given expected : α)
  | hybridizationBlock (color dim : Nat)
  | bathCouplings (color level couplings : Nat)
  | kernelBeta (kernel : KernelName) (given expected : α)
  | kernelShape (kernel : KernelName) (colors dim : Nat)
  | meshPoints (given : Nat)
  | noCycle
  | emptyCycle
  | noMove

open Decimal in
def Problem.message : Problem Float → String
  | beta b => s!"beta must be positive, got {plain b}"
  | noColor => "At least one color is required"
  | interactionShape n => s!"u must be a {n}x{n} matrix"
  | interactionDiagonal c x =>
    s!"u must have a zero diagonal, u[{c}][{c}] = {plain x}"
  | interactionAsymmetric c d x y =>
    s!"u must be symmetric, u[{c}][{d}] = {plain x} but u[{d}][{c}] = {plain y}"
  | hybridizationCount n given => s!"Expected {n} hybridization functions, got {given}"
  | hybridizationBeta c given expected =>
    s!"Hybridization of color {c} has beta = {plain given}, expected {plain expected}"
  | hybridizationBlock c dim =>
    s!"Hybridization of color {c} must be a 1x1 block, got dimension {dim}"
  | bathCouplings c level n => s!"Bath level {level} of color {c} has {n} couplings, expected 1"
  | kernelBeta k given expected =>
    s!"{k.text} is tabulated for beta = {plain given}, expected {plain expected}"
  | kernelShape k n dim => s!"{k.text} must be a {n}x{n} matrix, got dimension {dim}"
  | meshPoints n => s!"n_tau must be at least 2, got {n}"
  | noCycle => "n_cycles must be positive"
  | emptyCycle => "length_cycle must be positive"
  | noMove => "At least one move must be enabled"

end ImpuritySampler

/-!
# Extents

The lengths of a table along its axes. Places in a table are numbered and its entries are stored, so
an extent can be too large for either, also where an axis of length zero leaves no entry at all.
Main statement: a table without such an axis can be made if its entries can be stored.
-/

set_option autoImplicit false

namespace ImpuritySampler

abbrev Extent := List Nat

namespace Extent

def size (e : Extent) : Nat := e.foldl (· * ·) 1

def placeLimit : Nat := Nat.pow 2 63

/-- The number of entries has to stay below this: an entry takes eight places of memory. -/
def entryLimit : Nat := Nat.pow 2 60

/-- Can the places be numbered? An axis of length zero does not make the others shorter. -/
def Addressable (e : Extent) : Prop := size (e.filter (· ≠ 0)) < placeLimit

def Storable (e : Extent) : Prop := e.Addressable ∧ e.size < entryLimit

instance (e : Extent) : Decidable e.Addressable :=
  inferInstanceAs (Decidable (_ < _))

instance (e : Extent) : Decidable e.Storable :=
  inferInstanceAs (Decidable (_ ∧ _))

theorem addressable_iff {e : Extent} (h : 0 ∉ e) : e.Addressable ↔ e.size < placeLimit := by
  have keep : e.filter (· ≠ 0) = e :=
    List.filter_eq_self.2 fun n hn => decide_eq_true fun hz => h (hz ▸ hn)
  rw [Addressable, keep]

theorem entryLimit_lt_placeLimit : entryLimit < placeLimit := by decide

theorem storable_iff {e : Extent} (h : 0 ∉ e) : e.Storable ↔ e.size < entryLimit := by
  rw [Storable, addressable_iff h]
  exact and_iff_right_of_imp fun hs => Nat.lt_trans hs entryLimit_lt_placeLimit

end Extent
end ImpuritySampler
